import EdgeVoice.ChunkTrace

/-! Do a segment's times describe its audio? On a channel whose packets follow each
other without a gap they do for every partial, for both halves of a cut and for every
flushed segment, as long as a cut finds none of its segment's packets lost to an
exception. A segment closed by an `end` stops one packet short: `_end_segment` takes
the start of the packet that ends it, whose chunk is in the segment. -/

namespace EdgeVoice.SegmentTimes
open PythonText Models VadWorker VadTrack SegmentLifecycle ChunkTrace StepSystem

section Spaced

variable {d : ℚ} {xs : List ℚ}

theorem spaced_gap (spaced : xs.Pairwise fun a b => a + d ≤ b) {i : ℕ} :
    ∀ k (inside : i + k < xs.length), xs[i] + k * d ≤ xs[i + k] := by
  intro k
  induction k with
  | zero => simp
  | succ k ih =>
    intro inside
    have before := ih (by omega)
    have next := List.pairwise_iff_getElem.mp spaced (i + k) (i + (k + 1)) (by omega) inside
      (by omega)
    push_cast
    linarith

/-- Values at least `d` apart that span no more than that are exactly `d` apart. -/
theorem exact_of_spaced (spaced : xs.Pairwise fun a b => a + d ≤ b) {n : ℕ} {first x : ℚ}
    (head : xs[0]? = some first) (last : xs[n]? = some (first + n * d)) {k : ℕ} (bound : k ≤ n)
    (at_k : xs[k]? = some x) : x = first + k * d := by
  obtain ⟨_, head⟩ := List.getElem?_eq_some_iff.mp head
  obtain ⟨inside, last⟩ := List.getElem?_eq_some_iff.mp last
  obtain ⟨_, at_k⟩ := List.getElem?_eq_some_iff.mp at_k
  have below := @spaced_gap d xs spaced 0 k (by omega)
  have above := @spaced_gap d xs spaced k (n - k) (by omega)
  have rest : k + (n - k) = n := by omega
  simp only [Nat.zero_add, rest] at below above
  rw [head, at_k] at below
  rw [at_k, last, Nat.cast_sub bound] at above
  linarith

/-- In a chain of steps of `d` every earlier value is a whole number of steps behind. -/
theorem chain_last {u : ℚ} (chain : (xs ++ [u]).IsChain fun a b => b = a + d) :
    ∀ a ∈ xs, ∃ m : ℕ, u = a + (m + 1) * d := by
  induction xs using List.reverseRecOn generalizing u with
  | nil => simp
  | append_singleton ys y ih =>
    obtain ⟨earlier, _, join⟩ := List.isChain_append.mp chain
    have step : u = y + d := join y (by simp) u (by simp)
    intro a member
    rcases List.mem_append.mp member with old | new
    · obtain ⟨m, behind⟩ := ih earlier a old
      exact ⟨m + 1, by rw [step, behind]; push_cast; ring⟩
    · rw [List.mem_singleton.mp new]
      exact ⟨0, by rw [step]; ring⟩

end Spaced

variable {σ : Type} (cfg : VADWorkerConfig) (it : VADIterator σ)

/-- A segment's times are those of its audio: it starts with its first chunk, ends one
sample duration per sample later, and starts where the head ended that it was cut from. -/
structure Timed (e : Emission) : Prop where
  start : ∃ first, e.chunks.head? = some first ∧ e.segment.start = first.timestamp
  endTs : e.segment.endTs = e.segment.start + (e.segment.audio.length / 2 : ℚ) / cfg.sampleRate
  abuts : ∀ headEnd, e.cutFrom = some headEnd → e.segment.start = headEnd

/-- What a packet must meet for the times to stay right: it does not close the segment by
an `end`, unless it has no samples, and where the buffer is empty after a cut or is cut
now, no packet of the segment was lost. -/
structure KeepsTime (packet : AudioPacket) (state : ChannelState σ) : Prop where
  goesOn : replyTo cfg it packet state = some .ended → packet.samples.length / 2 = 0
  complete : ∀ startTs, state.segmentStartTs = some startTs →
    raises cfg it packet state = false →
    (state.segmentChunks = [] ∨ (cutAt cfg it packet state).isSome = true) →
      startTs + state.segmentChunks.length * chunkSeconds cfg packet = packet.timestamp

/-- The duration of `n` samples. -/
abbrev duration (n : ℕ) : ℚ := n / cfg.sampleRate

/-- A heard chunk of the common size. -/
def Heard (n : ℕ) (c : Str) (past : List VadEvent) (chunk : Chunk) : Prop :=
  chunk.samples.length = 2 * n ∧ chunk.timestamp ∈ stampsOn c past

/-- How the buffers stand to the time: chunks are at least a packet apart, the segment
starts with its first chunk, and at the end of its head if it was cut from one. -/
structure OnTime (n : ℕ) (c : Str) (past : List VadEvent) (t : Traced σ) : Prop where
  held : ∀ chunk ∈ t.chunks, Heard n c past chunk
  preroll : ∀ chunk ∈ waiting t.state, Heard n c past chunk
  spaced : (t.chunks.map Chunk.timestamp).Pairwise fun a b => a + duration cfg n ≤ b
  prerollSpaced : ((waiting t.state).map Chunk.timestamp).Pairwise fun a b =>
    a + duration cfg n ≤ b
  first : ∀ startTs chunk, t.state.segmentStartTs = some startTs → t.chunks.head? = some chunk →
    chunk.timestamp = startTs
  cutFrom : ∀ headEnd, t.cutFrom = some headEnd → t.state.segmentStartTs = some headEnd

/-- Chunks of one size, the first of them at the start of the segment they are of, which
is the end of the head it was cut from. -/
structure HeldOnTime (n : ℕ) (startTs : ℚ) (held : Held) : Prop where
  size : ∀ chunk ∈ held.chunks, chunk.samples.length = 2 * n
  spaced : (held.chunks.map Chunk.timestamp).Pairwise fun a b => a + duration cfg n ≤ b
  first : ∀ chunk, held.chunks.head? = some chunk → chunk.timestamp = startTs
  abuts : ∀ headEnd, held.cutFrom = some headEnd → startTs = headEnd

variable {cfg it}

theorem length_audio {n : ℕ} {chunks : List Chunk}
    (size : ∀ chunk ∈ chunks, chunk.samples.length = 2 * n) :
    (chunks.flatMap Chunk.samples).length = chunks.length * (2 * n) := by
  induction chunks with
  | nil => simp
  | cons chunk chunks ih =>
    have here := size chunk (by simp)
    have rest := ih fun later member => size later (by simp [member])
    rw [List.flatMap_cons, List.length_append, here, rest, List.length_cons]
    ring

/-- A segment made of them that ends as long after its start as they last. -/
theorem HeldOnTime.timed {n : ℕ} {startTs : ℚ} {held : Held} (h : HeldOnTime cfg n startTs held)
    (nonempty : held.chunks ≠ []) {endTs : ℚ}
    (ends : endTs = startTs + held.chunks.length * duration cfg n) (c segmentId : Str)
    (isPartial : Bool) : Timed cfg (made c startTs endTs held segmentId isPartial) := by
  obtain ⟨first, rest, chunks⟩ := List.exists_cons_of_ne_nil nonempty
  have head : held.chunks.head? = some first := by rw [chunks, List.head?_cons]
  refine ⟨⟨first, head, (h.first first head).symm⟩, ?_, h.abuts⟩
  simp only [made]
  rw [length_audio h.size, ends]
  push_cast
  ring

/-- A cut leaves both its halves on time if the chunk it falls on is. -/
theorem cut_onTime {n : ℕ} {c : Str} {index : Option ℕ} {startTs onward : ℚ}
    {held left : Held} {head : List Emission}
    (cut : CutOutcome c index (duration cfg n) startTs held head onward left)
    (h : HeldOnTime cfg n startTs held)
    (falls : ∀ k chunk, index = some k → held.chunks[k]? = some chunk →
      chunk.timestamp = startTs + k * duration cfg n) :
    HeldOnTime cfg n onward left ∧ ∀ e ∈ head, Timed cfg e := by
  cases cut with
  | whole => exact ⟨h, by simp⟩
  | cut k segmentId found pos inside =>
    have tail : HeldOnTime cfg n (startTs + k * duration cfg n)
        ⟨held.chunks.drop k, some (startTs + k * duration cfg n)⟩ := by
      refine ⟨fun chunk member => h.size chunk (List.mem_of_mem_drop member),
        h.spaced.sublist ((List.drop_sublist _ _).map _), ?_, fun headEnd same => ?_⟩
      · intro chunk at_head
        rw [List.head?_drop] at at_head
        exact falls k chunk found at_head
      · exact Option.some.inj same
    have front : HeldOnTime cfg n startTs ⟨held.chunks.take k, held.cutFrom⟩ := by
      refine ⟨fun chunk member => h.size chunk (List.mem_of_mem_take member),
        h.spaced.sublist ((List.take_sublist _ _).map _), ?_, h.abuts⟩
      intro chunk at_head
      rw [List.head?_take, if_neg (by omega)] at at_head
      exact h.first chunk at_head
    refine ⟨tail, ?_⟩
    intro e member
    rw [List.mem_singleton.mp member]
    refine front.timed ?_ ?_ c segmentId false
    · intro none_taken
      have none_long := congrArg List.length none_taken
      rw [List.length_take, Nat.min_eq_left inside] at none_long
      exact absurd none_long (by simpa using pos.ne')
    · rw [List.length_take, Nat.min_eq_left inside]

/-- So does the partial shown of what is left. -/
theorem shown_timed {n : ℕ} {c : Str} {startTs : ℚ} {held : Held} {shown : List Emission}
    (partials : ShowOutcome c (duration cfg n) startTs held shown)
    (h : HeldOnTime cfg n startTs held) : ∀ e ∈ shown, Timed cfg e := by
  intro e member
  cases partials with
  | silent => simp at member
  | shown segmentId nonempty =>
    rw [List.mem_singleton.mp member]
    exact h.timed nonempty rfl c segmentId true

theorem OnTime.fresh (n : ℕ) (c : Str) (iterators : Str → σ) :
    OnTime cfg n c [] ⟨{}, freshChannels it iterators c⟩ :=
  ⟨by simp, by simp [waiting, freshChannels], by simp, by simp [waiting, freshChannels],
    by simp, by simp⟩

theorem Heard.later {n : ℕ} {c : Str} {past : List VadEvent} {chunk : Chunk}
    (h : Heard n c past chunk) (event : VadEvent) : Heard n c (past ++ [event]) chunk :=
  ⟨h.1, by rw [stampsOn_append]; exact List.mem_append_left _ h.2⟩

theorem heard_size {packet : AudioPacket} {state : ChannelState σ} {n : ℕ}
    (heard : raises cfg it packet state = false) (size : packet.samples.length / 2 = n) :
    packet.samples.length = 2 * n := by
  have decodes : Even packet.samples.length := by
    by_contra odd
    rw [← pcmToFloat_eq_none] at odd
    simp [raises, odd] at heard
  obtain ⟨half, whole⟩ := decodes
  omega

section Step

variable {n : ℕ} {c : Str} {past : List VadEvent} {t : Traced σ}

theorem spaced_with_packet {packet : AudioPacket} {chunks : List Chunk}
    (spaced : (chunks.map Chunk.timestamp).Pairwise fun a b => a + duration cfg n ≤ b)
    (behind : ∀ chunk ∈ chunks, chunk.timestamp + duration cfg n ≤ packet.timestamp)
    (speech : Bool) :
    ((chunks ++ [(⟨packet.timestamp, packet.samples, speech⟩ : Chunk)]).map
      Chunk.timestamp).Pairwise fun a b => a + duration cfg n ≤ b := by
  rw [List.map_append, List.pairwise_append]
  refine ⟨spaced, List.pairwise_singleton _ _, ?_⟩
  intro a member b new
  obtain ⟨old, inside, rfl⟩ := List.mem_map.mp member
  rw [show b = packet.timestamp by simpa using new]
  exact behind old inside

/-- With every chunk on time, a buffer that reaches up to the packet has no gap. -/
theorem OnTime.contiguous (h : OnTime cfg n c past t) {packet : AudioPacket} {startTs : ℚ}
    (begun : t.state.segmentStartTs = some startTs)
    (behind : ∀ chunk ∈ t.chunks, chunk.timestamp + duration cfg n ≤ packet.timestamp)
    (complete : startTs + t.chunks.length * duration cfg n = packet.timestamp) {k : ℕ}
    {chunk : Chunk} (at_k : (t.chunks ++ [spoken packet])[k]? = some chunk) :
    chunk.timestamp = startTs + k * duration cfg n := by
  have spaced : ((t.chunks ++ [spoken packet]).map Chunk.timestamp).Pairwise fun a b =>
      a + duration cfg n ≤ b := spaced_with_packet h.spaced behind true
  have head : ((t.chunks ++ [spoken packet]).map Chunk.timestamp)[0]? = some startTs := by
    have same := h.first startTs
    revert same complete
    cases t.chunks with
    | nil => simp [spoken, eq_comm]
    | cons first rest =>
      intro _ same
      simpa using same first begun rfl
  have last : ((t.chunks ++ [spoken packet]).map Chunk.timestamp)[t.chunks.length]? =
      some (startTs + t.chunks.length * duration cfg n) := by
    simp [spoken, complete]
  have inside : k < (t.chunks ++ [spoken packet]).length :=
    (List.getElem?_eq_some_iff.mp at_k).1
  rw [List.length_append, List.length_singleton] at inside
  exact exact_of_spaced spaced head last (by omega) (by rw [List.getElem?_map, at_k]; rfl)

/-- The packet that comes next comes at least one packet after everything buffered. -/
theorem behind_packet {packet : AudioPacket} {now : ℚ} (own : packet.channelId = c)
    (chain : (stampsOn c (past ++ [.packet packet now])).IsChain fun a b =>
      b = a + duration cfg n) {chunk : Chunk} (heard : Heard n c past chunk) :
    ∃ m : ℕ, packet.timestamp = chunk.timestamp + (m + 1) * duration cfg n := by
  have stamps :
      stampsOn c (past ++ [.packet packet now]) = stampsOn c past ++ [packet.timestamp] := by
    simp [stampsOn, own]
  rw [stamps] at chain
  exact chain_last chain chunk.timestamp heard.2

theorem duration_nonneg (n : ℕ) : 0 ≤ duration cfg n := by
  unfold duration
  positivity

theorem le_packet {packet : AudioPacket} {chunk : Chunk}
    (behind : ∃ m : ℕ, packet.timestamp = chunk.timestamp + (m + 1) * duration cfg n) :
    chunk.timestamp + duration cfg n ≤ packet.timestamp := by
  obtain ⟨m, later⟩ := behind
  have nonneg := mul_nonneg (show (0 : ℚ) ≤ m by positivity) (@duration_nonneg cfg n)
  rw [later]
  linarith

theorem OnTime.buffered (h : OnTime cfg n c past t) {startTs : ℚ}
    (begun : t.state.segmentStartTs = some startTs) : HeldOnTime cfg n startTs t.toHeld := by
  refine ⟨fun chunk member => (h.held chunk member).1, h.spaced,
    fun chunk => h.first startTs chunk begun, fun headEnd cut => ?_⟩
  have same := h.cutFrom headEnd cut
  rw [begun] at same
  exact Option.some.inj same

/-- A packet that is heard goes on where the buffer ends. -/
theorem OnTime.withPacket (h : OnTime cfg n c past t) (sound : Sound cfg it (fun _ => True) t)
    {packet : AudioPacket} (size : packet.samples.length / 2 = n)
    (behind : ∀ chunk ∈ t.chunks, chunk.timestamp + duration cfg n ≤ packet.timestamp)
    (keeps : KeepsTime cfg it packet t.state) (heard : raises cfg it packet t.state = false)
    {startTs : ℚ} (begun : t.state.segmentStartTs = some startTs) :
    HeldOnTime cfg n startTs ⟨t.chunks ++ [spoken packet], t.cutFrom⟩ := by
  obtain ⟨sizes, spaced, first, abuts⟩ := h.buffered begun
  refine ⟨?_, spaced_with_packet spaced behind true, ?_, abuts⟩
  · intro chunk member
    rcases List.mem_append.mp member with old | new
    · exact sizes chunk old
    · rw [List.mem_singleton.mp new]
      exact heard_size heard size
  · have complete := keeps.complete startTs begun heard
    rw [← sound.chunks] at complete
    revert complete first
    simp only
    cases t.chunks with
    | nil =>
      intro _ complete chunk head
      have reaches := complete (Or.inl rfl)
      rw [← Option.some.inj head]
      simpa [spoken] using reaches.symm
    | cons old rest =>
      intro first _ chunk head
      exact first chunk head

/-- Out of speech only the preroll is left to be on time. -/
theorem OnTime.closed {event : VadEvent} {t' : Traced σ}
    (after : Sound cfg it (fun _ => True) t') (still : t'.state.triggered = false)
    (preroll : ∀ chunk ∈ waiting t'.state, Heard n c (past ++ [event]) chunk)
    (spaced : ((waiting t'.state).map Chunk.timestamp).Pairwise fun a b =>
      a + duration cfg n ≤ b) : OnTime cfg n c (past ++ [event]) t' := by
  have empty := after.closed still
  have ended := (after.coherent.closed still).1
  have whole := after.quiet still
  refine ⟨by simp [empty], preroll, by rw [empty]; exact List.Pairwise.nil, spaced,
    by simp [empty], ?_⟩
  intro headEnd some_head
  rw [whole] at some_head
  cases some_head

/-- In speech the preroll is empty. -/
theorem OnTime.speaking {event : VadEvent} {t' : Traced σ} {startTs : ℚ}
    (begun : t'.state.segmentStartTs = some startTs)
    (held : ∀ chunk ∈ t'.chunks, Heard n c (past ++ [event]) chunk)
    (h : HeldOnTime cfg n startTs t'.toHeld) (empty : t'.state.preroll = []) :
    OnTime cfg n c (past ++ [event]) t' := by
  refine ⟨held, by simp [waiting, empty], h.spaced, by simp [waiting, empty], ?_, ?_⟩
  · intro start chunk begun' head
    rw [begun] at begun'
    rw [← Option.some.inj begun']
    exact h.first chunk head
  · intro headEnd cut
    rw [begun, h.abuts headEnd cut]

/-- A segment starts with the oldest chunk of the preroll, or with the packet. -/
theorem OnTime.opened (h : OnTime cfg n c past t) {packet : AudioPacket}
    (size : packet.samples.length = 2 * n)
    (behind : ∀ chunk ∈ waiting t.state, chunk.timestamp + duration cfg n ≤ packet.timestamp) :
    HeldOnTime cfg n ((t.state.preroll.head?.map Prod.fst).getD packet.timestamp)
      ⟨waiting t.state ++ [spoken packet], none⟩ := by
  refine ⟨?_, spaced_with_packet h.prerollSpaced behind true, ?_, by simp⟩
  · intro chunk member
    rcases List.mem_append.mp member with old | new
    · exact (h.preroll chunk old).1
    · rw [List.mem_singleton.mp new]
      exact size
  · intro chunk head
    unfold waiting at head
    cases first : t.state.preroll with
    | nil =>
      simp only [first, List.map_nil, List.nil_append, List.head?_cons] at head
      rw [← Option.some.inj head]
      rfl
    | cons entry rest =>
      simp only [first, List.map_cons, List.cons_append, List.head?_cons] at head
      rw [← Option.some.inj head]
      rfl

/-- The duration `_flush_channel` reckons from the bytes. -/
theorem flushed_duration {chunks : List Chunk}
    (size : ∀ chunk ∈ chunks, chunk.samples.length = 2 * n) :
    (((chunks.map fun chunk => chunk.samples.length).sum / 2 : ℕ) : ℚ) / cfg.sampleRate =
      chunks.length * duration cfg n := by
  have total : (chunks.map fun chunk => chunk.samples.length).sum = chunks.length * (2 * n) := by
    rw [← length_audio size, List.length_flatMap]
  have half : chunks.length * (2 * n) / 2 = chunks.length * n := by
    rw [← Nat.mul_assoc, Nat.mul_right_comm, Nat.mul_div_cancel _ (by omega)]
  rw [total, half, duration]
  push_cast
  ring

/-- The step lemma: an event keeps the buffers on time and emits timed segments. -/
theorem OnTime.step {event : VadEvent} {r : Traced σ × List Emission} (h : OnTime cfg n c past t)
    (sound : Sound cfg it (fun _ => True) t) (after : Sound cfg it (fun _ => True) r.1)
    (outcome : Outcome cfg it c t event r)
    (own : ∀ packet now, event = .packet packet now →
      packet.channelId = c ∧ packet.samples.length / 2 = n ∧ KeepsTime cfg it packet t.state)
    (chain : (stampsOn c (past ++ [event])).IsChain fun a b => b = a + duration cfg n) :
    OnTime cfg n c (past ++ [event]) r.1 ∧ ∀ e ∈ r.2, Timed cfg e := by
  obtain ⟨held, preroll, _⟩ := outcome.chunks_of after
    (fun chunk member => (h.held chunk member).later event)
    (fun chunk member => (h.preroll chunk member).later event) (by
      intro packet now received heard speech
      obtain ⟨channel, size, _⟩ := own packet now received
      refine ⟨heard_size heard size, ?_⟩
      rw [received, stampsOn_append]
      simp [stampsOn, channel])
  have behind {packet : AudioPacket} {now : ℚ} (received : event = .packet packet now)
      {chunk : Chunk} (heard : Heard n c past chunk) :
      chunk.timestamp + duration cfg n ≤ packet.timestamp := by
    subst received
    exact le_packet (behind_packet (own packet now rfl).1 chain heard)
  cases outcome with
  | quiet lost silent same startTs kept =>
    refine ⟨⟨held, preroll, ?_, ?_, ?_, ?_⟩, by simp [silent]⟩
    · rw [same]
      exact h.spaced
    · rw [waiting, kept]
      exact h.prerollSpaced
    · rw [same, startTs]
      exact h.first
    · rw [same, startTs]
      exact h.cutFrom
  | waited packet now received heard silent still kept =>
    have longer := spaced_with_packet h.prerollSpaced
      (fun chunk member => behind received (h.preroll chunk member)) false
    refine ⟨OnTime.closed after still preroll ?_, by simp [silent]⟩
    rw [waiting, kept]
    have kept_part := ((@pushPreroll_sublist σ cfg packet t.state).map fun entry =>
      (⟨entry.1, entry.2, false⟩ : Chunk)).map Chunk.timestamp
    rw [List.map_append] at kept_part
    exact longer.sublist kept_part
  | started packet now received reply silent same startTs kept =>
    obtain ⟨_, size, _⟩ := own packet now received
    have heard : raises cfg it packet t.state = false := by simp [raises_of_reply reply]
    have opened := h.opened (heard_size heard size)
      fun chunk member => behind received (h.preroll chunk member)
    rw [← same] at opened
    exact ⟨OnTime.speaking startTs held opened kept, by simp [silent]⟩
  | ended packet now received reply startTs segmentId begun emitted still kept =>
    obtain ⟨channel, size, keeps⟩ := own packet now received
    have heard : raises cfg it packet t.state = false := by simp [raises_of_reply reply]
    have noSamples : n = 0 := by rw [← size, keeps.goesOn reply]
    have instant : duration cfg n = 0 := by simp [duration, noSamples]
    have whole := h.withPacket sound size
      (fun chunk member => behind received (h.held chunk member)) keeps heard begun
    -- packets without samples all have one timestamp
    have now_too : packet.timestamp = startTs := by
      cases chunks : t.chunks with
      | nil => exact whole.first (spoken packet) (by simp [chunks])
      | cons first rest =>
        have member : first ∈ t.chunks := by simp [chunks]
        subst received
        obtain ⟨m, later⟩ := behind_packet channel chain (h.held first member)
        rw [later, instant, mul_zero, add_zero]
        exact whole.first first (by simp [chunks])
    refine ⟨OnTime.closed after still preroll (by simp [waiting, kept]), ?_⟩
    intro e member
    rw [emitted, List.mem_singleton] at member
    rw [member]
    exact whole.timed (by simp) (by rw [now_too, instant, mul_zero, add_zero]) c segmentId false
  | continued packet now received reply startTs begun head shown onward cut partials emitted
      after_start kept =>
    obtain ⟨_, size, keeps⟩ := own packet now received
    have heard : raises cfg it packet t.state = false := by simp [raises_of_reply reply]
    have seconds : chunkSeconds cfg packet = duration cfg n := by rw [chunkSeconds, size]
    rw [seconds] at cut partials
    have before : ∀ chunk ∈ t.chunks, chunk.timestamp + duration cfg n ≤ packet.timestamp :=
      fun chunk member => behind received (h.held chunk member)
    obtain ⟨left, timed⟩ := cut_onTime cut (h.withPacket sound size before keeps heard begun) (by
      intro k chunk found at_k
      have complete := keeps.complete startTs begun heard (Or.inr (by rw [found]; rfl))
      rw [← sound.chunks, List.length_map, seconds] at complete
      exact h.contiguous begun before complete at_k)
    refine ⟨OnTime.speaking after_start held left kept, ?_⟩
    intro e member
    rw [emitted, List.mem_append] at member
    rcases member with cutOff | partly
    · exact timed e cutOff
    · exact shown_timed partials left e partly
  | flushed noPacket startTs segmentId begun nonempty emitted still kept =>
    refine ⟨OnTime.closed after still preroll ?_, ?_⟩
    · rw [waiting, kept]
      exact h.prerollSpaced
    · intro e member
      rw [emitted, List.mem_singleton] at member
      rw [member]
      have buffered := h.buffered begun
      exact buffered.timed nonempty (by rw [flushed_duration buffered.size]) c segmentId false

end Step

section Run

variable (cfg it)

/-- The packets of a channel are of one size, follow each other without a gap and keep the
time. -/
structure Steady (keys : ChannelKeys) (iterators : Str → σ) (c : Str) (n : ℕ)
    (events : List VadEvent) : Prop where
  size : ∀ packet now, .packet packet now ∈ events → packet.channelId = c →
    packet.samples.length / 2 = n
  consecutive : (stampsOn c events).IsChain fun a b => b = a + duration cfg n
  keeps : ∀ past packet now later, events = past ++ .packet packet now :: later →
    packet.channelId = c → KeepsTime cfg it packet (reached cfg it keys iterators past c)

theorem Steady.earlier {cfg : VADWorkerConfig} {it : VADIterator σ} {keys : ChannelKeys}
    {iterators : Str → σ} {c : Str} {n : ℕ} {past : List VadEvent} {event : VadEvent}
    (h : Steady cfg it keys iterators c n (past ++ [event])) :
    Steady cfg it keys iterators c n past where
  size packet now member := h.size packet now (List.mem_append_left _ member)
  consecutive := by
    have chain := h.consecutive
    rw [stampsOn_append] at chain
    exact (List.isChain_append.mp chain).1
  keeps first packet now rest whole := h.keeps first packet now (rest ++ [event])
    (by rw [whole, List.append_assoc, List.cons_append])

/-- In every run whose packets on a channel are of one size and follow each other without
a gap, every segment put on the channel is timed, if every packet keeps the time. -/
theorem segments_timed (keys : ChannelKeys) (iterators : Str → σ) {c : Str}
    (configured : c ∈ keys.val) (events : List VadEvent) (n : ℕ)
    (size : ∀ packet now, .packet packet now ∈ events → packet.channelId = c →
      packet.samples.length / 2 = n)
    (consecutive : (stampsOn c events).IsChain fun a b => b = a + duration cfg n)
    (keeps : ∀ past packet now later, events = past ++ .packet packet now :: later →
      packet.channelId = c → KeepsTime cfg it packet (reached cfg it keys iterators past c)) :
    puts (effectsOn c (outputs (workerStep cfg it keys) (freshChannels it iterators) events).2) =
        (traced cfg it iterators c events).2.map Emission.segment ∧
      ∀ e ∈ (traced cfg it iterators c events).2,
        e.segment.audio = e.chunks.flatMap Chunk.samples ∧ Timed cfg e := by
  have timed := traced_history cfg it iterators c
    (I := fun past t emitted => Steady cfg it keys iterators c n past →
      OnTime cfg n c past t ∧ ∀ e ∈ emitted, Timed cfg e) ?_ ?_ ?_ events
    ⟨size, consecutive, keeps⟩
  · refine ⟨(traced_faithful cfg it keys iterators configured events).2.symm, ?_⟩
    intro e member
    exact ⟨traced_audio cfg it iterators c events e member, timed.2 e member⟩
  · intro _
    exact ⟨OnTime.fresh n c iterators, by simp⟩
  · intro past event t emitted before foreign steady
    obtain ⟨onTime, timed⟩ := before steady.earlier
    refine ⟨⟨fun chunk member => (onTime.held chunk member).later event,
      fun chunk member => (onTime.preroll chunk member).later event, onTime.spaced,
      onTime.prerollSpaced, onTime.first, onTime.cutFrom⟩, timed⟩
  · intro past event t emitted r before reachedBy sound after own outcome steady
    obtain ⟨onTime, timed⟩ := before steady.earlier
    have state : t.state = reached cfg it keys iterators past c := by
      rw [reachedBy]
      exact (traced_faithful cfg it keys iterators configured past).1
    obtain ⟨onTime, now_timed⟩ := onTime.step sound after outcome (by
      intro packet now received
      have channel := own packet now received
      refine ⟨channel, steady.size packet now (by simp [received]) channel, ?_⟩
      rw [state]
      exact steady.keeps past packet now [] (by rw [received]) channel) steady.consecutive
    refine ⟨onTime, ?_⟩
    intro e member
    rcases List.mem_append.mp member with old | new
    · exact timed e old
    · exact now_timed e new

end Run

section Runs

/-- Speech that goes on until the shutdown flush. -/
def flushedRun : List VadEvent :=
  [.packet ⟨['r'], 0, [1, 0]⟩ 0, .packet ⟨['r'], 1 / 16000, [1, 0]⟩ 0, .flush]

theorem flushed_segments_timed :
    puts (effectsOn ['r'] (outputs (workerStep ungated levelIterator channelR)
        (freshChannels levelIterator fun _ => false) flushedRun).2) =
        (traced ungated levelIterator (fun _ => false) ['r'] flushedRun).2.map Emission.segment ∧
      ∀ e ∈ (traced ungated levelIterator (fun _ => false) ['r'] flushedRun).2,
        e.segment.audio = e.chunks.flatMap Chunk.samples ∧ Timed ungated e := by
  have noCut (packet : AudioPacket) (state : ChannelState Bool) :
      cutAt ungated levelIterator packet state = none := rfl
  refine segments_timed ungated levelIterator channelR (fun _ => false) (by decide) flushedRun 1
    ?_ ?_ ?_
  · intro packet now member _
    simp only [flushedRun, List.mem_cons, VadEvent.packet.injEq, List.not_mem_nil, or_false,
      reduceCtorEq] at member
    rcases member with ⟨rfl, _⟩ | ⟨rfl, _⟩
    · rfl
    · rfl
  · simp [stampsOn, flushedRun, duration, ungated]
  · intro past packet now later whole _
    cases past with
    | nil =>
      cases whole
      exact ⟨by decide +kernel, fun startTs begun => by cases begun⟩
    | cons first past =>
      cases past with
      | nil =>
        cases whole
        refine ⟨by decide +kernel, fun startTs begun heard place => ?_⟩
        rcases place with empty | cut
        · exact absurd empty (by decide +kernel)
        · simp [noCut] at cut
      | cons second past =>
        -- the third event is the flush
        cases past with
        | nil => cases whole
        | cons third past => simp [flushedRun] at whole

/-- Speech that a packet of silence ends. -/
def endedRun : List VadEvent :=
  [.packet ⟨['r'], 0, [1, 0]⟩ 0, .packet ⟨['r'], 1 / 16000, [0, 0]⟩ 0]

/-- The segment holds two samples, and its times are one sample apart. -/
theorem ended_segment_not_timed :
    (stampsOn ['r'] endedRun).IsChain (fun a b => b = a + duration ungated 1) ∧
      ¬∀ e ∈ (traced ungated levelIterator (fun _ => false) ['r'] endedRun).2, Timed ungated e := by
  refine ⟨by simp [stampsOn, endedRun, duration, ungated], fun timed => ?_⟩
  have off : ∃ e ∈ (traced ungated levelIterator (fun _ => false) ['r'] endedRun).2,
      e.segment.endTs ≠
        e.segment.start + (e.segment.audio.length / 2 : ℚ) / ungated.sampleRate := by
    decide +kernel
  obtain ⟨e, member, wrong⟩ := off
  exact wrong (timed e member).endTs

end Runs

end EdgeVoice.SegmentTimes
