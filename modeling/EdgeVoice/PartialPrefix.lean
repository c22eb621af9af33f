import EdgeVoice.VadCases

/-! Partials against the final of their segment. A partial shows all that is buffered when it
is put, and the segment may still be closed short of that: by a soft cut placed back in time,
by an end taken from a packet's arrival, or by a duration counted from chunks of another length.
The last partial of a segment is the longest and the latest, so it alone decides. -/

namespace EdgeVoice.PartialPrefix
open PythonText Models VadWorker VadTrack ChunkTrace SegmentOrder SegmentLifecycle VadCases
open StepSystem

/-- A partial, and a final put later: if they are of one segment, the partial is a prefix. -/
def Announces (shown closing : SpeechSegment) : Prop :=
  shown.isPartial = true → closing.isPartial = false → shown.segmentId = closing.segmentId →
    shown.start = closing.start ∧ shown.audio <+: closing.audio ∧ shown.endTs ≤ closing.endTs

instance (shown closing : SpeechSegment) : Decidable (Announces shown closing) := by
  unfold Announces
  infer_instance

/-- The last of the segments put, if it is a partial. -/
def lastShown (queue : List SpeechSegment) : Option SpeechSegment :=
  queue.getLast?.filter (·.isPartial)

variable {σ : Type} (cfg : VADWorkerConfig) (it : VADIterator σ)

/-- Closing a segment at this event takes nothing back from the partial that was put last. -/
def KeepsShown (queue : List SpeechSegment) (state : ChannelState σ) : VadEvent → Prop
  | .packet packet _ =>
    (replyTo cfg it packet state = some .ended →
      ∀ shown ∈ lastShown queue, shown.endTs ≤ packet.timestamp) ∧
    (replyTo cfg it packet state = some .nothing →
      ∀ startTs ∈ state.segmentStartTs, ∀ k ∈ cutAt cfg it packet state,
        0 < k → k ≤ state.segmentChunks.length + 1 → ∀ shown ∈ lastShown queue,
          shown.audio.length ≤
              ((state.segmentChunks ++ [packet.samples]).take k).flatten.length ∧
            shown.endTs ≤ startTs + k * chunkSeconds cfg packet)
  | event =>
    FlushDue cfg event state → state.segmentChunks ≠ [] → ∀ startTs ∈ state.segmentStartTs,
      ∀ shown ∈ lastShown queue, shown.endTs ≤ flushEnd cfg startTs state

/-- How the segments put on a channel relate to the one in progress. -/
structure Showing (c : Str) (queue : List SpeechSegment) (state : ChannelState σ) : Prop where
  numbered : ∀ put ∈ queue, ∃ ts n, put.segmentId = segmentIdText c ts n ∧ n ≤ state.segCounter
  named : ∀ segmentId ∈ state.segmentId, ∃ ts, segmentId = segmentIdText c ts state.segCounter
  last : ∀ shown ∈ lastShown queue,
    state.segmentId = some shown.segmentId ∧ state.segmentStartTs = some shown.start ∧
      shown.audio <+: state.segmentChunks.flatten ∧
        shown.endTs = shown.start + state.lastPartialS
  earlier : ∀ segmentId ∈ state.segmentId, ∀ put ∈ queue, put.segmentId = segmentId →
    ∃ shown ∈ lastShown queue, put.start = shown.start ∧ put.audio <+: shown.audio ∧
      put.endTs ≤ shown.endTs

theorem mem_lastShown {queue : List SpeechSegment} {shown : SpeechSegment} :
    shown ∈ lastShown queue ↔ queue.getLast? = some shown ∧ shown.isPartial = true := by
  simp [lastShown, Option.filter_eq_some_iff]

theorem lastShown_final (queue : List SpeechSegment) {closing : SpeechSegment}
    (final : closing.isPartial = false) : lastShown (queue ++ [closing]) = none := by
  simp [lastShown, Option.filter, final]

theorem lastShown_shown (queue : List SpeechSegment) {shown : SpeechSegment}
    (part : shown.isPartial = true) : lastShown (queue ++ [shown]) = some shown := by
  simp [lastShown, Option.filter, part]

variable {cfg it} {c : Str} {queue : List SpeechSegment} {state : ChannelState σ}

theorem Showing.nil (c : Str) (state : ChannelState σ) (closed : state.segmentId = none) :
    Showing c [] state := by
  constructor <;> simp [lastShown, closed]

/-- More chunks at the end of the buffer; the other fields of the segment stay. -/
theorem Showing.onward (h : Showing c queue state) {next : ChannelState σ}
    (counter : next.segCounter = state.segCounter) (named : next.segmentId = state.segmentId)
    (begun : next.segmentStartTs = state.segmentStartTs)
    (paced : next.lastPartialS = state.lastPartialS)
    (chunks : state.segmentChunks <+: next.segmentChunks) : Showing c queue next := by
  refine ⟨?_, ?_, ?_, ?_⟩
  · rw [counter]
    exact h.numbered
  · rw [counter, named]
    exact h.named
  · rw [named, begun, paced]
    intro shown member
    obtain ⟨mine, started, audio, ends⟩ := h.last shown member
    refine ⟨mine, started, audio.trans ?_, ends⟩
    obtain ⟨more, same⟩ := chunks
    exact ⟨more.flatten, by rw [← same, List.flatten_append]⟩
  · rw [named]
    exact h.earlier

/-- No segment is in progress, so none has a partial put last. -/
theorem Showing.quiet (h : Showing c queue state) (closed : state.segmentId = none) :
    lastShown queue = none := by
  rw [Option.eq_none_iff_forall_ne_some]
  intro shown member
  rw [(h.last shown member).1] at closed
  cases closed

/-- A segment of the next id is opened where no partial was put last. -/
theorem Showing.opened (h : Showing c queue state) (silent : lastShown queue = none)
    {next : ChannelState σ} {startTs : ℚ} (counter : next.segCounter = state.segCounter + 1)
    (named : next.segmentId = some (segmentIdText c startTs (state.segCounter + 1))) :
    Showing c queue next := by
  refine ⟨?_, ?_, by simp [silent], ?_⟩
  · intro put member
    obtain ⟨ts, n, same, older⟩ := h.numbered put member
    exact ⟨ts, n, same, by omega⟩
  · rw [named, counter]
    rintro _ ⟨⟩
    exact ⟨startTs, rfl⟩
  · rw [named]
    rintro _ ⟨⟩ put member same
    obtain ⟨ts, n, older_id, older⟩ := h.numbered put member
    have newest := segmentIdText_counter (older_id.symm.trans same)
    omega

/-- The segment in progress is closed. -/
theorem Showing.shut (h : Showing c queue state) {closing : SpeechSegment}
    (final : closing.isPartial = false) (mine : state.segmentId = some closing.segmentId)
    {next : ChannelState σ} (counter : next.segCounter = state.segCounter)
    (idle : next.segmentId = none) : Showing c (queue ++ [closing]) next := by
  refine ⟨?_, by simp [idle], by simp [lastShown_final queue final], by simp [idle]⟩
  intro put member
  rw [counter]
  rcases List.mem_append.mp member with old | new
  · exact h.numbered put old
  · rw [List.mem_singleton.mp new]
    obtain ⟨ts, same⟩ := h.named _ mine
    exact ⟨ts, _, same, le_refl _⟩

/-- A partial of all that is buffered. -/
theorem Showing.shown (h : Showing c queue state) {shown : SpeechSegment}
    (part : shown.isPartial = true) (mine : state.segmentId = some shown.segmentId)
    (begun : state.segmentStartTs = some shown.start)
    (audio : shown.audio = state.segmentChunks.flatten) {segS : ℚ}
    (ends : shown.endTs = shown.start + segS) (later : state.lastPartialS ≤ segS) :
    Showing c (queue ++ [shown]) { state with lastPartialS := segS } := by
  refine ⟨?_, h.named, ?_, ?_⟩
  · intro put member
    rcases List.mem_append.mp member with old | new
    · exact h.numbered put old
    · rw [List.mem_singleton.mp new]
      obtain ⟨ts, same⟩ := h.named _ mine
      exact ⟨ts, _, same, le_refl _⟩
  · rw [lastShown_shown queue part]
    rintro _ ⟨⟩
    exact ⟨mine, begun, by rw [audio], ends⟩
  · rw [lastShown_shown queue part]
    intro segmentId own put member same
    refine ⟨shown, rfl, ?_⟩
    rcases List.mem_append.mp member with old | new
    · -- the longest so far is a prefix of the buffer
      obtain ⟨before, found, start, prefixed, ended⟩ := h.earlier segmentId own put old same
      obtain ⟨_, started, inside, last⟩ := h.last before found
      have one : before.start = shown.start := Option.some.inj (started.symm.trans begun)
      refine ⟨start.trans one, ?_, ?_⟩
      · rw [audio]
        exact prefixed.trans inside
      · rw [ends, ← one]
        exact ended.trans (by linarith)
    · rw [List.mem_singleton.mp new]
      exact ⟨rfl, List.prefix_refl _, le_refl _⟩

/-- Only the partial that was put last decides whether a final keeps to all of them. -/
theorem Showing.announces_iff (h : Showing c queue state) {closing : SpeechSegment}
    (final : closing.isPartial = false) (mine : state.segmentId = some closing.segmentId)
    (begun : state.segmentStartTs = some closing.start)
    (audio : closing.audio <+: state.segmentChunks.flatten) :
    (∀ put ∈ queue, Announces put closing) ↔
      ∀ shown ∈ lastShown queue,
        shown.audio.length ≤ closing.audio.length ∧ shown.endTs ≤ closing.endTs := by
  constructor
  · intro all shown last
    obtain ⟨at_end, part⟩ := mem_lastShown.mp last
    have same := Option.some.inj ((h.last shown last).1.symm.trans mine)
    obtain ⟨_, prefixed, ends⟩ := all shown (List.mem_of_getLast? at_end) part final same
    exact ⟨prefixed.length_le, ends⟩
  · intro covers put member _ _ same
    obtain ⟨shown, last, start, prefixed, ended⟩ := h.earlier _ mine put member same
    obtain ⟨_, started, inside, _⟩ := h.last shown last
    obtain ⟨short, before⟩ := covers shown last
    refine ⟨start.trans (Option.some.inj (started.symm.trans begun)), ?_, ended.trans before⟩
    exact prefixed.trans (List.prefix_of_prefix_length_le inside audio short)

theorem Announces.of_shown (shown : SpeechSegment) {later : SpeechSegment}
    (part : later.isPartial = true) : Announces shown later := by
  intro _ final
  rw [part] at final
  cases final

/-- The cut check cuts where `cutAt` says, if that is inside the buffer. -/
theorem cutCheck_cutAt (packet : AudioPacket) (now : ℚ) (state : ChannelState σ) :
    (∃ scores, cutCheck cfg it packet (extended it packet now state) =
        ({ extended it packet now state with scores := scores }, []) ∧
      ∀ k ∈ cutAt cfg it packet state, ¬(0 < k ∧ k ≤ state.segmentChunks.length + 1)) ∨
    ∃ scores, ∃ k ∈ cutAt cfg it packet state,
      (0 < k ∧ k ≤ state.segmentChunks.length + 1) ∧
      cutCheck cfg it packet (extended it packet now state) =
        cutSegment packet.channelId k (chunkSeconds cfg packet)
          { extended it packet now state with scores := scores } := by
  unfold cutCheck
  by_cases limited : cfg.segmentLimitsEnabled = true
  · obtain ⟨scores, step⟩ :=
      maybeCut_eq cfg it packet.channelId packet (extended it packet now state)
    have index : cutIndex cfg (packet.samples.length / 2)
        (extended it packet now state).segmentChunks.length (extended it packet now state).scores
          (it.lastScore (extended it packet now state).vadIter) = cutAt cfg it packet state := by
      simp [cutAt, limited, extended, heard]
    rw [if_pos limited, step, index]
    cases found : cutAt cfg it packet state with
    | none => exact Or.inl ⟨scores, rfl, by simp⟩
    | some k =>
      by_cases valid : 0 < k ∧ k ≤ state.segmentChunks.length + 1
      · exact Or.inr ⟨scores, k, rfl, valid, rfl⟩
      · left
        refine ⟨scores, ?_, ?_⟩
        · rcases cutSegment_cases packet.channelId k (chunkSeconds cfg packet)
            { extended it packet now state with scores := scores } with outside | inside
          · exact outside
          · exact absurd (by simpa [extended] using inside) valid
        · rintro _ ⟨⟩
          exact valid
  · rw [if_neg limited]
    exact Or.inl ⟨_, rfl, by simp [cutAt, limited]⟩

/-- The partial check puts at most a partial. -/
theorem Showing.show (h : Showing c queue state) {packet : AudioPacket}
    {result : ChannelState σ × List Effect} (did : ShowCase cfg packet state result) :
    Showing c (queue ++ puts result.2) result.1 ∧ ∀ put ∈ puts result.2, put.isPartial = true := by
  cases did with
  | silent => exact ⟨by simpa [puts] using h, by simp [puts]⟩
  | shown paced due startTs segmentId begun named =>
    refine ⟨?_, by simp [puts]⟩
    exact h.shown (by rfl) named begun rfl rfl (by linarith)

/-- The middle of speech. -/
theorem Showing.continued (h : Showing c queue state) (packet : AudioPacket) (now : ℚ)
    (own : packet.channelId = c) (reply : replyTo cfg it packet state = some .nothing)
    {startTs : ℚ} {segmentId : Str} (begun : state.segmentStartTs = some startTs)
    (named : state.segmentId = some segmentId) :
    Showing c (queue ++ puts (continueSegment cfg it packet (extended it packet now state)).2)
        (continueSegment cfg it packet (extended it packet now state)).1 ∧
      (puts (continueSegment cfg it packet (extended it packet now state)).2).Pairwise Announces ∧
      ((∀ put ∈ queue,
          ∀ closing ∈ puts (continueSegment cfg it packet (extended it packet now state)).2,
            Announces put closing) ↔ KeepsShown cfg it queue state (.packet packet now)) := by
  have longer : Showing c queue (extended it packet now state) :=
    h.onward rfl rfl rfl rfl (List.prefix_append _ _)
  obtain ⟨shown, shows, whole⟩ := @continueSegment_shows σ cfg it packet
    (extended it packet now state) startTs segmentId begun named
  rw [whole, puts_append]
  -- first the cut check
  have checked : Showing c (queue ++ puts (cutCheck cfg it packet (extended it packet now state)).2)
        (cutCheck cfg it packet (extended it packet now state)).1 ∧
      (puts (cutCheck cfg it packet (extended it packet now state)).2).Pairwise Announces ∧
      ((∀ put ∈ queue, ∀ closing ∈ puts (cutCheck cfg it packet (extended it packet now state)).2,
          Announces put closing) ↔ KeepsShown cfg it queue state (.packet packet now)) := by
    rcases @cutCheck_cutAt σ cfg it packet now state with
      ⟨scores, same, outside⟩ | ⟨scores, k, index, ⟨pos, inside⟩, same⟩
    · rw [same]
      refine ⟨?_, by simp [puts], iff_of_true (by simp [puts]) ⟨by simp [reply], ?_⟩⟩
      · have scored : Showing c queue { extended it packet now state with scores := scores } :=
          longer.onward rfl rfl rfl rfl (List.prefix_refl _)
        simpa [puts] using scored
      · intro _ _ _ k found pos within
        exact absurd ⟨pos, within⟩ (outside k found)
    · have cut := @cutSegment_open σ packet.channelId k (chunkSeconds cfg packet)
        { extended it packet now state with scores := scores } startTs segmentId begun named pos
        (by simpa [extended] using inside)
      rw [same, cut]
      simp only [puts, List.filterMap_cons, List.filterMap_nil]
      let closing : SpeechSegment := ⟨packet.channelId, startTs,
        startTs + k * chunkSeconds cfg packet,
        ((state.segmentChunks ++ [packet.samples]).take k).flatten, segmentId, false⟩
      have mine : (extended it packet now state).segmentId = some closing.segmentId := named
      have head : ((state.segmentChunks ++ [packet.samples]).take k).flatten <+:
          (state.segmentChunks ++ [packet.samples]).flatten := by
        conv_rhs => rw [← List.take_append_drop k (state.segmentChunks ++ [packet.samples]),
          List.flatten_append]
        exact List.prefix_append _ _
      refine ⟨?_, List.pairwise_singleton _ _, ?_⟩
      · have headClosed : Showing c (queue ++ [closing])
            { extended it packet now state with segmentId := none } :=
          longer.shut rfl mine rfl rfl
        apply headClosed.opened (lastShown_final queue rfl) rfl
        rw [← own]
      · simp only [List.mem_singleton, forall_eq]
        refine (longer.announces_iff (show closing.isPartial = false from rfl) mine begun head).trans
          ?_
        constructor
        · intro covers
          refine ⟨by simp [reply], fun _ ts started j found _ _ => ?_⟩
          obtain rfl := Option.some.inj (begun.symm.trans started)
          obtain rfl := Option.some.inj (index.symm.trans found)
          exact covers
        · intro keeps
          exact keeps.2 reply startTs begun k index pos inside
  -- then the partial
  obtain ⟨showing, pairwise, keeps⟩ := checked
  obtain ⟨last, parts⟩ := showing.show shows
  refine ⟨by simpa using last, ?_, ?_⟩
  · rw [List.pairwise_append]
    refine ⟨pairwise, ?_, fun _ _ put member => Announces.of_shown _ (parts put member)⟩
    exact List.pairwise_of_forall_mem_list fun _ _ put member =>
      Announces.of_shown _ (parts put member)
  · rw [← keeps]
    constructor
    · intro all put member closing early
      exact all put member closing (List.mem_append_left _ early)
    · intro all put member closing either
      rcases List.mem_append.mp either with early | late
      · exact all put member closing early
      · exact Announces.of_shown _ (parts closing late)

/-- The step lemma: what an event puts keeps to the partials put before it exactly if its
closing of a segment does. -/
theorem Showing.step {ok : ℚ → Prop} (h : Showing c queue state)
    (coherent : Coherent ok cfg it state) (event : VadEvent)
    (own : ∀ packet now, event = .packet packet now → packet.channelId = c) :
    Showing c (queue ++ puts (channelStep cfg it c state event).2)
        (channelStep cfg it c state event).1 ∧
      (puts (channelStep cfg it c state event).2).Pairwise Announces ∧
      ((∀ put ∈ queue, ∀ closing ∈ puts (channelStep cfg it c state event).2,
          Announces put closing) ↔ KeepsShown cfg it queue state event) := by
  have did := channelStep_case coherent event own
  generalize channelStep cfg it c state event = result at did
  cases did with
  | idle noPacket undone =>
    refine ⟨by simpa [puts] using h, by simp [puts], iff_of_true (by simp [puts]) ?_⟩
    have still : FlushDue cfg event state → state.segmentChunks ≠ [] →
        ∀ startTs ∈ state.segmentStartTs, ∀ shown ∈ lastShown queue,
          shown.endTs ≤ flushEnd cfg startTs state := by
      intro due nonempty startTs begun
      rcases undone due with idle | empty
      · rw [idle] at begun
        cases begun
      · exact absurd empty nonempty
    cases event with
    | packet packet now => exact absurd rfl (noPacket packet now)
    | idleCheck now => exact still
    | flush => exact still
  | lost packet now received reply vadIter kept =>
    subst received
    have same : Showing c queue { state with lastPacketAt := now, vadIter := vadIter } :=
      h.onward rfl rfl rfl rfl (List.prefix_refl _)
    refine ⟨by simpa [puts] using same, by simp [puts], iff_of_true (by simp [puts]) ?_⟩
    rcases reply with unheard | raised
    · simp [KeepsShown, unheard]
    · simp [KeepsShown, raised]
  | waited packet now received quiet reply vadIter still =>
    subst received
    have same : Showing c queue
        (pushPreroll cfg packet { state with lastPacketAt := now, vadIter := vadIter }) :=
      h.onward rfl rfl rfl rfl (List.prefix_refl _)
    refine ⟨by simpa [puts] using same, by simp [puts], iff_of_true (by simp [puts]) ?_⟩
    rcases reply with unheard | nothing
    · simp [KeepsShown, unheard]
    · simp [KeepsShown, nothing, (coherent.closed quiet).1]
  | started packet now received quiet reply triggered =>
    subst received
    have silent := h.quiet (coherent.closed quiet).2
    have opened : Showing c queue (startSegment packet (heard it packet now state)).1 := by
      apply h.opened silent rfl
      rw [← own packet now rfl]
      rfl
    refine ⟨by simpa [puts, startSegment, newSegmentId] using opened, ?_, ?_⟩
    · simp [puts, startSegment, newSegmentId]
    · simp [puts, startSegment, newSegmentId, KeepsShown, reply]
  | ended packet now received speaking reply still startTs segmentId begun named =>
    subst received
    let closing : SpeechSegment := ⟨packet.channelId, startTs, packet.timestamp,
      (state.segmentChunks ++ [packet.samples]).flatten, segmentId, false⟩
    have longer : Showing c queue (extended it packet now state) :=
      h.onward rfl rfl rfl rfl (List.prefix_append _ _)
    have mine : (extended it packet now state).segmentId = some closing.segmentId := named
    have done : Showing c (queue ++ [closing]) (closed (heard it packet now state)) :=
      longer.shut rfl mine rfl rfl
    refine ⟨done, List.pairwise_singleton _ _, ?_⟩
    simp only [puts, List.filterMap_cons, List.filterMap_nil, List.mem_singleton, forall_eq]
    refine (longer.announces_iff (show closing.isPartial = false from rfl) mine begun
      (List.prefix_refl _)).trans ?_
    constructor
    · intro covers
      exact ⟨fun _ shown last => (covers shown last).2, by simp [reply]⟩
    · intro keeps shown last
      exact ⟨(longer.last shown last).2.2.1.length_le, keeps.1 reply shown last⟩
  | continued packet now received speaking reply triggered startTs segmentId begun named =>
    subst received
    exact h.continued packet now (own packet now rfl) reply begun named
  | flushed due startTs segmentId begun named nonempty =>
    let closing : SpeechSegment := ⟨c, startTs, flushEnd cfg startTs state,
      state.segmentChunks.flatten, segmentId, false⟩
    have mine : state.segmentId = some closing.segmentId := named
    have done : Showing c (queue ++ [closing])
        (closed { state with vadIter := it.resetStates state.vadIter }) := h.shut rfl mine rfl rfl
    refine ⟨done, List.pairwise_singleton _ _, ?_⟩
    simp only [puts, List.filterMap_cons, List.filterMap_nil, List.mem_singleton, forall_eq]
    refine (h.announces_iff (show closing.isPartial = false from rfl) mine begun
      (List.prefix_refl _)).trans ?_
    have only : (∀ shown ∈ lastShown queue, shown.audio.length ≤ closing.audio.length ∧
        shown.endTs ≤ closing.endTs) ↔
          (FlushDue cfg event state → state.segmentChunks ≠ [] → ∀ ts ∈ state.segmentStartTs,
            ∀ shown ∈ lastShown queue, shown.endTs ≤ flushEnd cfg ts state) := by
      constructor
      · intro covers _ _ ts started shown last
        rw [Option.some.inj (started.symm.trans begun)]
        exact (covers shown last).2
      · intro keeps shown last
        exact ⟨(h.last shown last).2.2.1.length_le, keeps due nonempty startTs begun shown last⟩
    cases event with
    | packet packet now => exact due.elim
    | idleCheck now => exact only
    | flush => exact only

section Run

variable (cfg it)
variable (keys : ChannelKeys) (iterators : Str → σ) (c : Str)

/-- The segments put on a channel's queue over a run of the worker, in order. -/
abbrev putsOn (events : List VadEvent) : List SpeechSegment :=
  puts (effectsOn c (outputs (workerStep cfg it keys) (freshChannels it iterators) events).2)

/-- Every event of the channel takes nothing back from what it finds put. -/
def AllKeepShown (events : List VadEvent) : Prop :=
  ∀ past event later, events = past ++ event :: later → concerns c event = true →
    KeepsShown cfg it (putsOn cfg it keys iterators c past)
      (reached cfg it keys iterators past c) event

variable {cfg it keys iterators c}

theorem putsOn_concat (configured : c ∈ keys.val) (past : List VadEvent) (event : VadEvent) :
    putsOn cfg it keys iterators c (past ++ [event]) = putsOn cfg it keys iterators c past ++
      if concerns c event then
        puts (channelStep cfg it c (reached cfg it keys iterators past c) event).2
      else [] := by
  rw [putsOn, effectsOn_concat cfg it keys iterators configured, puts_append]
  split
  · rfl
  · rfl

/-- The run lemma, with the exact condition of each event. -/
theorem run_announces (configured : c ∈ keys.val) (events : List VadEvent) :
    Showing c (putsOn cfg it keys iterators c events) (reached cfg it keys iterators events c) ∧
      ((putsOn cfg it keys iterators c events).Pairwise Announces ↔
        AllKeepShown cfg it keys iterators c events) := by
  induction events using List.reverseRecOn with
  | nil => exact ⟨Showing.nil c _ rfl, by simp [puts, AllKeepShown]⟩
  | append_singleton past event ih =>
    obtain ⟨showing, announces⟩ := ih
    have after := reached_concat cfg it keys iterators configured past event
    rw [putsOn_concat configured, AllKeepShown, forall_inputs_concat, ← AllKeepShown, ← announces,
      List.pairwise_append]
    by_cases mine : concerns c event = true
    · rw [if_pos mine] at after
      obtain ⟨next, pairwise, keeps⟩ := showing.step
        (@reached_coherent σ cfg it keys iterators c configured past) event (by
          rintro packet now rfl
          simpa [concerns] using mine)
      rw [if_pos mine, after]
      refine ⟨next, ?_⟩
      constructor
      · rintro ⟨old, _, across⟩
        exact ⟨old, fun _ => keeps.mp across⟩
      · rintro ⟨old, now⟩
        exact ⟨old, pairwise, keeps.mpr (now mine)⟩
    · rw [if_neg mine] at after
      rw [if_neg mine, after]
      refine ⟨by simpa using showing, ?_⟩
      constructor
      · rintro ⟨old, _⟩
        exact ⟨old, fun own => absurd own mine⟩
      · rintro ⟨old, _⟩
        exact ⟨old, List.Pairwise.nil, by simp⟩

/-- No id is on two channels. -/
theorem segmentId_channel {events : List VadEvent}
    (nonneg : ∀ packet now, .packet packet now ∈ events → 0 ≤ packet.timestamp) {d : Str}
    {a b : SpeechSegment} (here : a ∈ putsOn cfg it keys iterators c events)
    (there : b ∈ putsOn cfg it keys iterators d events) (same : a.segmentId = b.segmentId) :
    c = d := by
  have text (c : Str) {put : SpeechSegment} (member : put ∈ putsOn cfg it keys iterators c events) :
      ∃ t n, (0 : ℚ) ≤ t ∧ put.segmentId = segmentIdText c t n := by
    obtain ⟨u, emitted, _⟩ := worker_protocol cfg it keys iterators events nonneg c
    obtain ⟨times, all, _, ids⟩ := emitted.ids
    have minted := (emitted.known put member).2
    rw [ids] at minted
    obtain ⟨k, inside, built⟩ := List.mem_mapIdx.mp minted
    exact ⟨times[k], k + 1, all _ (List.getElem_mem _), built.symm⟩
  obtain ⟨t, m, ht, first⟩ := text c here
  obtain ⟨u, n, hu, second⟩ := text d there
  exact segmentIdText_channel ht hu (first.symm.trans (same.trans second))

variable (cfg it keys iterators)

theorem announces_iff_keeps (events : List VadEvent)
    (nonneg : ∀ packet now, .packet packet now ∈ events → 0 ≤ packet.timestamp) :
    (puts ((outputs (workerStep cfg it keys) (freshChannels it iterators)
        events).2.map Prod.snd)).Pairwise Announces ↔
      ∀ c ∈ keys.val, AllKeepShown cfg it keys iterators c events := by
  constructor
  · intro all c configured
    apply (run_announces configured events).2.mp
    exact all.sublist ((List.filter_sublist.map Prod.snd).filterMap _)
  · intro keeps
    rw [puts, List.pairwise_filterMap]
    apply pairwise_of_classes
    · intro c
      by_cases configured : c ∈ keys.val
      · have announces := (run_announces configured events).2.mpr (keeps c configured)
        rwa [putsOn, puts, List.pairwise_filterMap] at announces
      · have silent := worker_unconfigured cfg it keys iterators configured events
        rw [effectsOn] at silent
        rw [silent]
        exact List.Pairwise.nil
    · intro c d x y first second apart a puts_a b puts_b _ _ same
      have onChannel {c : Str} {x : Effect} (tagged : (c, x) ∈ (outputs (workerStep cfg it keys)
          (freshChannels it iterators) events).2) : x ∈ effectsOn c (outputs
            (workerStep cfg it keys) (freshChannels it iterators) events).2 :=
        List.mem_map.mpr ⟨(c, x), List.mem_filter.mpr ⟨tagged, by simp⟩, rfl⟩
      have here : a ∈ putsOn cfg it keys iterators c events :=
        List.mem_filterMap.mpr ⟨x, onChannel first, puts_a⟩
      have there : b ∈ putsOn cfg it keys iterators d events :=
        List.mem_filterMap.mpr ⟨y, onChannel second, puts_b⟩
      exact absurd (segmentId_channel nonneg here there same) apart

/-- In every run over packets with clock readings, on whatever channels: each partial is a
prefix of the final of its id, if and only if no event takes back from the partial put last.
Where none does, that holds too of the puts that a full queue lets through. -/
theorem partials_prefix_iff (events : List VadEvent)
    (nonneg : ∀ packet now, .packet packet now ∈ events → 0 ≤ packet.timestamp) :
    ((puts ((outputs (workerStep cfg it keys) (freshChannels it iterators)
        events).2.map Prod.snd)).Pairwise Announces ↔
      ∀ c ∈ keys.val, AllKeepShown cfg it keys iterators c events) ∧
    ((∀ c ∈ keys.val, AllKeepShown cfg it keys iterators c events) →
      ∀ queue : List SpeechSegment, queue.Sublist (puts ((outputs (workerStep cfg it keys)
        (freshChannels it iterators) events).2.map Prod.snd)) → queue.Pairwise Announces) := by
  have exact_when := announces_iff_keeps cfg it keys iterators events nonneg
  exact ⟨exact_when, fun keeps queue through => (exact_when.mpr keeps).sublist through⟩

end Run

section Runs

def partialsOn : VADWorkerConfig :=
  { ungated with partialIntervalS := 1 / 16000, partialMinSegmentS := 0 }

/-- Two packets of speech, a partial after the second, and the end of speech. -/
def spokenRun : List VadEvent :=
  [.packet ⟨['r'], 0, [1, 0]⟩ 0, .packet ⟨['r'], 1, [1, 0]⟩ 1, .packet ⟨['r'], 2, [0, 0]⟩ 2]

theorem spoken_keeps :
    AllKeepShown partialsOn levelIterator channelR (fun _ => false) ['r'] spokenRun := by
  apply (partials_prefix_iff partialsOn levelIterator channelR (fun _ => false) spokenRun
    ?_).1.mp ?_ ['r'] (by simp [channelR])
  · intro packet now member
    simp only [spokenRun, List.mem_cons, VadEvent.packet.injEq, List.not_mem_nil, or_false]
      at member
    rcases member with ⟨rfl, _⟩ | ⟨rfl, _⟩ | ⟨rfl, _⟩ <;> norm_num
  · decide +kernel

/-- The first of the least scores is looked for three chunks back. -/
def lookingBack : VADWorkerConfig :=
  { partialsOn with
    segmentLimitsEnabled := true, maxSegmentS := 7 / 16000, softCutS := 4 / 16000
    softCutLookaheadS := 3 / 16000, softCutMinDip := 0 }

/-- A partial shows three chunks, and the fourth has the segment cut after the second. -/
theorem softCut_behind_partial :
    ¬(puts ((outputs (workerStep lookingBack loudnessIterator channelR)
      (freshChannels loudnessIterator fun _ => (false, 0))
        [.packet ⟨['r'], 0, [1, 0]⟩ 0, .packet ⟨['r'], 1, [1, 0]⟩ 1, .packet ⟨['r'], 2, [2, 0]⟩ 2,
          .packet ⟨['r'], 3, [2, 0]⟩ 3]).2.map Prod.snd)).Pairwise Announces := by
  decide +kernel

end Runs

end EdgeVoice.PartialPrefix
