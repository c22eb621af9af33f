import EdgeVoice.SegmentLifecycle

/-! The packets behind a channel's buffers. The segment buffer of the code holds bytes
only. A trace runs next to a channel and keeps for each buffered chunk the packet it
came in and, for a segment begun by a cut, where its head ended; every emitted segment
comes with the chunks it is made of. `tracedStep_outcome` says all that a step can do. -/

namespace EdgeVoice.ChunkTrace
open PythonText Models VadWorker VadTrack SegmentLifecycle StepSystem

/-- A buffered chunk as it was received; one out of the preroll is not speech. -/
structure Chunk where
  timestamp : ℚ
  samples : List UInt8
  speech : Bool
deriving DecidableEq

/-- What a segment is made of, and the end of the head it was cut from if it was. -/
structure Held where
  chunks : List Chunk := []
  cutFrom : Option ℚ := none
deriving DecidableEq

structure Traced (σ : Type) extends Held where
  state : ChannelState σ

structure Emission extends Held where
  segment : SpeechSegment
deriving DecidableEq

variable {σ : Type} (cfg : VADWorkerConfig) (it : VADIterator σ)

/-- What the iterator answers to a packet that decodes and is not gated. -/
def replyTo (packet : AudioPacket) (state : ChannelState σ) : Option VADReply :=
  match pcmToFloat packet.samples with
  | none => none
  | some chunk =>
    if cfg.rmsGateEnabled && !state.triggered && rmsBelow chunk cfg.silenceRmsFloor then none
    else some (it.call state.vadIter chunk).1

/-- The iterator after it heard the packet. -/
def heardIter (packet : AudioPacket) (state : ChannelState σ) : σ :=
  match pcmToFloat packet.samples with
  | none => state.vadIter
  | some chunk => (it.call state.vadIter chunk).2

/-- Where the packet's own check cuts the segment in progress, its chunk included. -/
def cutAt (packet : AudioPacket) (state : ChannelState σ) : Option ℕ :=
  if cfg.segmentLimitsEnabled then
    cutIndex cfg (packet.samples.length / 2) (state.segmentChunks.length + 1) state.scores
      (it.lastScore (heardIter it packet state))
  else none

def spoken (packet : AudioPacket) : Chunk := ⟨packet.timestamp, packet.samples, true⟩

/-- The chunks waiting in the preroll. -/
def waiting (state : ChannelState σ) : List Chunk :=
  state.preroll.map fun entry => ⟨entry.1, entry.2, false⟩

/-- The chunks that are in the segment buffer at some moment of an event. -/
def passing (t : Traced σ) : VadEvent → List Chunk
  | .packet packet _ =>
    match replyTo cfg it packet t.state with
    | some .started => waiting t.state ++ [spoken packet]
    | some .ended => t.chunks ++ [spoken packet]
    | some .nothing => if t.state.triggered then t.chunks ++ [spoken packet] else t.chunks
    | _ => t.chunks
  | _ => t.chunks

/-- The segments put, each with its chunks: a final is made of those that leave the
buffer, a partial of those that stay. -/
def emissions (left kept : Held) (effects : List Effect) : List Emission :=
  effects.filterMap fun
    | .minted _ => none
    | .putNowait segment => some ⟨kept, segment⟩
    | .fanoutPut segment => some ⟨left, segment⟩

/-- One event of the channel and of its trace. -/
def tracedStep (c : Str) (t : Traced σ) (event : VadEvent) : Traced σ × List Emission :=
  let result := channelStep cfg it c t.state event
  let through := passing cfg it t event
  let gone := through.length - result.1.segmentChunks.length
  let cutFrom :=
    if result.1.triggered then
      ((finals result.2).head?.map SpeechSegment.endTs).or t.cutFrom
    else none
  (⟨⟨through.drop gone, cutFrom⟩, result.1⟩,
    emissions ⟨through.take gone, t.cutFrom⟩ ⟨through.drop gone, cutFrom⟩ result.2)

/-- What the code builds from these chunks. -/
def made (c : Str) (startTs endTs : ℚ) (held : Held) (segmentId : Str) (isPartial : Bool) :
    Emission :=
  ⟨held, ⟨c, startTs, endTs, held.chunks.flatMap Chunk.samples, segmentId, isPartial⟩⟩

/-- The cut check: the head it emits, and where the segment in progress starts after it. -/
inductive CutOutcome (c : Str) (index : Option ℕ) (chunkS startTs : ℚ) (held : Held) :
    List Emission → ℚ → Held → Prop
  | whole : CutOutcome c index chunkS startTs held [] startTs held
  | cut (k : ℕ) (segmentId : Str) (found : index = some k) (pos : 0 < k)
      (inside : k ≤ held.chunks.length) :
    CutOutcome c index chunkS startTs held
      [made c startTs (startTs + k * chunkS) ⟨held.chunks.take k, held.cutFrom⟩ segmentId false]
      (startTs + k * chunkS) ⟨held.chunks.drop k, some (startTs + k * chunkS)⟩

inductive ShowOutcome (c : Str) (chunkS startTs : ℚ) (held : Held) : List Emission → Prop
  | silent : ShowOutcome c chunkS startTs held []
  | shown (segmentId : Str) (nonempty : held.chunks ≠ []) :
    ShowOutcome c chunkS startTs held
      [made c startTs (startTs + held.chunks.length * chunkS) held segmentId true]

/-- All that one event can do to a channel's buffers. -/
inductive Outcome (c : Str) (t : Traced σ) (event : VadEvent) (r : Traced σ × List Emission) :
    Prop
  | quiet (lost : ∀ packet now, event = .packet packet now → raises cfg it packet t.state = true)
      (silent : r.2 = []) (held : r.1.toHeld = t.toHeld)
      (startTs : r.1.state.segmentStartTs = t.state.segmentStartTs)
      (preroll : r.1.state.preroll = t.state.preroll)
  | waited (packet : AudioPacket) (now : ℚ) (received : event = .packet packet now)
      (heard : raises cfg it packet t.state = false) (silent : r.2 = [])
      (still : r.1.state.triggered = false)
      (preroll : r.1.state.preroll = (pushPreroll cfg packet t.state).preroll)
  | started (packet : AudioPacket) (now : ℚ) (received : event = .packet packet now)
      (reply : replyTo cfg it packet t.state = some .started) (silent : r.2 = [])
      (held : r.1.toHeld = ⟨waiting t.state ++ [spoken packet], none⟩)
      (startTs : r.1.state.segmentStartTs =
        some ((t.state.preroll.head?.map Prod.fst).getD packet.timestamp))
      (preroll : r.1.state.preroll = [])
  | ended (packet : AudioPacket) (now : ℚ) (received : event = .packet packet now)
      (reply : replyTo cfg it packet t.state = some .ended) (startTs : ℚ) (segmentId : Str)
      (begun : t.state.segmentStartTs = some startTs)
      (emitted : r.2 = [made c startTs packet.timestamp
        ⟨t.chunks ++ [spoken packet], t.cutFrom⟩ segmentId false])
      (still : r.1.state.triggered = false) (preroll : r.1.state.preroll = [])
  | continued (packet : AudioPacket) (now : ℚ) (received : event = .packet packet now)
      (reply : replyTo cfg it packet t.state = some .nothing) (startTs : ℚ)
      (begun : t.state.segmentStartTs = some startTs) (head shown : List Emission) (onward : ℚ)
      (cut : CutOutcome c (cutAt cfg it packet t.state) (chunkSeconds cfg packet) startTs
        ⟨t.chunks ++ [spoken packet], t.cutFrom⟩ head onward r.1.toHeld)
      (partials : ShowOutcome c (chunkSeconds cfg packet) onward r.1.toHeld shown)
      (emitted : r.2 = head ++ shown) (after : r.1.state.segmentStartTs = some onward)
      (preroll : r.1.state.preroll = [])
  | flushed (noPacket : ∀ packet now, event ≠ .packet packet now) (startTs : ℚ)
      (segmentId : Str) (begun : t.state.segmentStartTs = some startTs)
      (nonempty : t.chunks ≠ [])
      (emitted : r.2 = [made c startTs
        (startTs + ((t.chunks.map fun chunk => chunk.samples.length).sum / 2 : ℕ) /
          cfg.sampleRate) t.toHeld segmentId false])
      (still : r.1.state.triggered = false) (preroll : r.1.state.preroll = t.state.preroll)

/-- The trace holds the chunks the channel holds. -/
structure Sound (ok : ℚ → Prop) (t : Traced σ) : Prop where
  coherent : Coherent ok cfg it t.state
  chunks : t.chunks.map Chunk.samples = t.state.segmentChunks
  quiet : t.state.triggered = false → t.cutFrom = none

theorem handlePacket_eq (packet : AudioPacket) (now : ℚ) (state : ChannelState σ) :
    handlePacket cfg it packet now state =
      match replyTo cfg it packet state with
      | none =>
        if pcmToFloat packet.samples = none then ({ state with lastPacketAt := now }, [])
        else (pushPreroll cfg packet { state with lastPacketAt := now }, [])
      | some reply =>
        let heard := { state with lastPacketAt := now, vadIter := heardIter it packet state }
        let kept :=
          if state.triggered then
            { heard with segmentChunks := state.segmentChunks ++ [packet.samples] }
          else heard
        match reply with
        | .raised => (heard, [])
        | .started => startSegment packet kept
        | .ended => endSegment packet kept
        | .nothing =>
          if state.triggered then continueSegment cfg it packet kept
          else (pushPreroll cfg packet kept, []) := by
  unfold handlePacket replyTo heardIter
  cases decoded : pcmToFloat packet.samples with
  | none => simp
  | some chunk =>
    simp only
    split
    · simp
    · simp only
      cases state.triggered with
      | true => rfl
      | false => rfl

variable {cfg it} {ok : ℚ → Prop}

/-- The step of a trace once the channel's own step is known. -/
theorem tracedStep_of (c : Str) {t : Traced σ} {event : VadEvent} {state : ChannelState σ}
    {effects : List Effect} {through : List Chunk} (k : ℕ)
    (step : channelStep cfg it c t.state event = (state, effects))
    (passes : passing cfg it t event = through)
    (gone : through.length = k + state.segmentChunks.length) (cutFrom : Option ℚ)
    (onward : (if state.triggered then
      ((finals effects).head?.map SpeechSegment.endTs).or t.cutFrom else none) = cutFrom) :
    tracedStep cfg it c t event = (⟨⟨through.drop k, cutFrom⟩, state⟩,
      emissions ⟨through.take k, t.cutFrom⟩ ⟨through.drop k, cutFrom⟩ effects) := by
  have count : through.length - state.segmentChunks.length = k := by omega
  unfold tracedStep
  rw [step, passes]
  simp only [count, onward]

@[simp] theorem emissions_append (left kept : Held) (effects later : List Effect) :
    emissions left kept (effects ++ later) =
      emissions left kept effects ++ emissions left kept later := by
  simp [emissions]

variable (cfg)

/-- What a cut check makes of the buffered chunks when it lets `k` of them go. -/
structure Checked (packet : AudioPacket) (index : Option ℕ) (startTs : ℚ) (held : Held)
    (state : ChannelState σ) (result : ChannelState σ × List Effect) (k : ℕ)
    (head : List Emission) (onward : ℚ) (kept : Held) : Prop where
  cut : CutOutcome packet.channelId index (chunkSeconds cfg packet) startTs held head onward kept
  startTs : result.1.segmentStartTs = some onward
  segmentId : result.1.segmentId.isSome = true
  still : result.1.triggered = state.triggered
  preroll : result.1.preroll = state.preroll
  inside : k ≤ held.chunks.length
  left : kept.chunks = held.chunks.drop k
  buffer : result.1.segmentChunks = kept.chunks.map Chunk.samples
  cutFrom : ((finals result.2).head?.map SpeechSegment.endTs).or held.cutFrom = kept.cutFrom
  emitted : ∀ later, emissions ⟨held.chunks.take k, held.cutFrom⟩ later result.2 = head

variable {cfg}

theorem Checked.none {packet : AudioPacket} (index : Option ℕ) {state : ChannelState σ}
    {startTs : ℚ} {segmentId : Str} (hs : state.segmentStartTs = some startTs)
    (hi : state.segmentId = some segmentId) {held : Held}
    (same : held.chunks.map Chunk.samples = state.segmentChunks) (scores : List (ℕ × ℚ)) :
    Checked cfg packet index startTs held state ({ state with scores := scores }, []) 0 []
      startTs held :=
  ⟨.whole, hs, by simp [hi], rfl, rfl, Nat.zero_le _, rfl, same.symm, by simp [finals],
    fun _ => rfl⟩

/-- The cut check on a buffer of these chunks. -/
theorem maybeCut_checked (packet : AudioPacket) {state : ChannelState σ} {startTs : ℚ}
    {segmentId : Str} (hs : state.segmentStartTs = some startTs)
    (hi : state.segmentId = some segmentId) {held : Held}
    (same : held.chunks.map Chunk.samples = state.segmentChunks) :
    ∃ k head onward kept, Checked cfg packet
      (cutIndex cfg (packet.samples.length / 2) state.segmentChunks.length state.scores
        (it.lastScore state.vadIter)) startTs held state
      (maybeCut cfg it packet.channelId packet state) k head onward kept := by
  obtain ⟨scores, step⟩ := maybeCut_eq cfg it packet.channelId packet state
  rw [step]
  cases found : cutIndex cfg (packet.samples.length / 2) state.segmentChunks.length state.scores
      (it.lastScore state.vadIter) with
  | none => exact ⟨0, [], startTs, held, Checked.none _ hs hi same scores⟩
  | some k =>
    simp only
    rcases cutSegment_cases packet.channelId k (chunkSeconds cfg packet)
      { state with scores := scores } with outside | ⟨pos, inside⟩
    · rw [outside]
      exact ⟨0, [], startTs, held, Checked.none _ hs hi same scores⟩
    · have cut := @cutSegment_open σ packet.channelId k (chunkSeconds cfg packet)
        { state with scores := scores } startTs segmentId hs hi pos inside
      rw [cut]
      have length : held.chunks.length = state.segmentChunks.length := by
        rw [← same, List.length_map]
      have bounded : k ≤ held.chunks.length := by
        simp only at inside
        omega
      refine ⟨k, _, startTs + k * chunkSeconds cfg packet,
        ⟨held.chunks.drop k, some (startTs + k * chunkSeconds cfg packet)⟩,
        ⟨.cut k segmentId rfl pos bounded, rfl, rfl, rfl, rfl, bounded, rfl, ?_, ?_, ?_⟩⟩
      · simp [← same]
      · simp [finals]
      · intro later
        simp [emissions, made, ← same, List.flatMap_def]

/-- A partial, if one is due, shows the chunks that are still buffered. -/
theorem maybeEmitPartial_shown (packet : AudioPacket) {state : ChannelState σ} {onward : ℚ}
    {segmentId : Str} (hs : state.segmentStartTs = some onward)
    (hi : state.segmentId = some segmentId) {kept : Held}
    (buffer : state.segmentChunks = kept.chunks.map Chunk.samples) (left : Held) :
    ∃ lastPartialS shown,
      (maybeEmitPartial cfg packet.channelId packet state).1 =
        { state with lastPartialS := lastPartialS } ∧
      finals (maybeEmitPartial cfg packet.channelId packet state).2 = [] ∧
      emissions left kept (maybeEmitPartial cfg packet.channelId packet state).2 = shown ∧
      ShowOutcome packet.channelId (chunkSeconds cfg packet) onward kept shown := by
  obtain same | ⟨segS, amount, nonempty, shown⟩ :=
    maybeEmitPartial_cases cfg packet.channelId packet hs hi
  · rw [same]
    exact ⟨state.lastPartialS, [], rfl, rfl, rfl, .silent⟩
  · rw [shown]
    refine ⟨segS, _, rfl, rfl, rfl, ?_⟩
    have chunks : kept.chunks ≠ [] := by
      intro empty
      exact nonempty (by rw [buffer, empty, List.map_nil])
    have whole := @ShowOutcome.shown packet.channelId (chunkSeconds cfg packet) onward kept
      segmentId chunks
    simpa [emissions, made, amount, buffer, chunkSeconds, List.flatMap_def] using whole

theorem raises_of_reply {packet : AudioPacket} {state : ChannelState σ} {reply : VADReply}
    (h : replyTo cfg it packet state = some reply) :
    raises cfg it packet state = decide (reply = .raised) := by
  unfold replyTo at h
  unfold raises
  cases decoded : pcmToFloat packet.samples with
  | none => simp [decoded] at h
  | some chunk =>
    simp only [decoded] at h ⊢
    split at h
    · cases h
    · rename_i open_gate
      cases h
      simp [open_gate]

theorem raises_of_noReply {packet : AudioPacket} {state : ChannelState σ}
    (h : replyTo cfg it packet state = none) :
    raises cfg it packet state = decide (pcmToFloat packet.samples = none) ∧
      (pcmToFloat packet.samples ≠ none → state.triggered = false) := by
  unfold replyTo at h
  unfold raises
  cases decoded : pcmToFloat packet.samples with
  | none => simp
  | some chunk =>
    simp only [decoded] at h ⊢
    split at h
    · rename_i gated
      simp only [Bool.and_eq_true, Bool.not_eq_true'] at gated
      simp [gated]
    · cases h

/-- An answer is the iterator's answer to the decoded packet. -/
theorem replyTo_call {packet : AudioPacket} {state : ChannelState σ} {reply : VADReply}
    (h : replyTo cfg it packet state = some reply) :
    ∃ chunk, (it.call state.vadIter chunk).1 = reply ∧
      heardIter it packet state = (it.call state.vadIter chunk).2 := by
  unfold replyTo at h
  unfold heardIter
  cases decoded : pcmToFloat packet.samples with
  | none => simp [decoded] at h
  | some chunk =>
    simp only [decoded] at h ⊢
    split at h
    · cases h
    · exact ⟨chunk, Option.some.inj h, rfl⟩

/-- A step that leaves the segment buffer alone leaves the trace alone. -/
theorem tracedStep_still (c : Str) {t : Traced σ} (h : Sound cfg it ok t) {event : VadEvent}
    {state : ChannelState σ} (step : channelStep cfg it c t.state event = (state, []))
    (passes : passing cfg it t event = t.chunks)
    (buffer : state.segmentChunks = t.state.segmentChunks)
    (still : state.triggered = t.state.triggered) :
    tracedStep cfg it c t event = (⟨t.toHeld, state⟩, []) := by
  have length : t.chunks.length = 0 + state.segmentChunks.length := by
    rw [buffer, ← h.chunks, List.length_map, Nat.zero_add]
  have onward : (if state.triggered then
      ((finals []).head?.map SpeechSegment.endTs).or t.cutFrom else none) = t.cutFrom := by
    by_cases speaking : state.triggered = true
    · simp [speaking, finals]
    · have quiet : t.state.triggered = false := by
        rw [← still]
        simpa using speaking
      simp [speaking, h.quiet quiet]
  rw [tracedStep_of c 0 step passes length t.cutFrom onward]
  rfl

/-- One packet that is not heard, or heard outside speech. -/
theorem tracedStep_aside (packet : AudioPacket) (now : ℚ) {t : Traced σ} (h : Sound cfg it ok t)
    (aside : replyTo cfg it packet t.state = none ∨
      replyTo cfg it packet t.state = some .raised ∨
      (replyTo cfg it packet t.state = some .nothing ∧ t.state.triggered = false)) :
    Outcome cfg it packet.channelId t (.packet packet now)
        (tracedStep cfg it packet.channelId t (.packet packet now)) ∧
      (tracedStep cfg it packet.channelId t (.packet packet now)).1.chunks.map Chunk.samples =
        (tracedStep cfg it packet.channelId t (.packet packet now)).1.state.segmentChunks := by
  have equation : channelStep cfg it packet.channelId t.state (.packet packet now) = _ :=
    handlePacket_eq cfg it packet now t.state
  have passes : passing cfg it t (.packet packet now) = t.chunks := by
    rcases aside with unheard | raised | ⟨nothing, quiet⟩
    · simp [passing, unheard]
    · simp [passing, raised]
    · simp [passing, nothing, quiet]
  rcases aside with unheard | raised | ⟨nothing, quiet⟩
  · obtain ⟨lost, idle⟩ := raises_of_noReply unheard
    rw [unheard] at equation
    by_cases undecoded : pcmToFloat packet.samples = none
    · simp only [if_pos undecoded] at equation
      rw [tracedStep_still packet.channelId h equation passes rfl rfl]
      exact ⟨.quiet (by rintro _ _ ⟨⟩; simp [lost, undecoded]) rfl rfl rfl rfl, h.chunks⟩
    · simp only [if_neg undecoded] at equation
      rw [tracedStep_still packet.channelId h equation passes rfl rfl]
      exact ⟨.waited packet now rfl (by simp [lost, undecoded]) rfl (idle undecoded) rfl,
        h.chunks⟩
  · rw [raised] at equation
    rw [tracedStep_still packet.channelId h equation passes rfl rfl]
    exact ⟨.quiet (by rintro _ _ ⟨⟩; simp [raises_of_reply raised]) rfl rfl rfl rfl, h.chunks⟩
  · rw [nothing] at equation
    simp only [quiet, Bool.false_eq_true, if_false] at equation
    rw [tracedStep_still packet.channelId h equation passes rfl quiet.symm]
    exact ⟨.waited packet now rfl (by simp [raises_of_reply nothing]) rfl rfl rfl, h.chunks⟩

/-- A packet that starts speech: the preroll and the packet become the segment. -/
theorem tracedStep_started (packet : AudioPacket) (now : ℚ) {t : Traced σ}
    (h : Sound cfg it ok t) (reply : replyTo cfg it packet t.state = some .started) :
    Outcome cfg it packet.channelId t (.packet packet now)
        (tracedStep cfg it packet.channelId t (.packet packet now)) ∧
      (tracedStep cfg it packet.channelId t (.packet packet now)).1.chunks.map Chunk.samples =
        (tracedStep cfg it packet.channelId t (.packet packet now)).1.state.segmentChunks := by
  obtain ⟨chunk, answer, _⟩ := replyTo_call reply
  have protocol := it.call_protocol t.state.vadIter chunk
  rw [answer] at protocol
  have quiet : t.state.triggered = false := h.coherent.iterator.trans protocol.1
  have step : channelStep cfg it packet.channelId t.state (.packet packet now) =
      startSegment packet { t.state with
        lastPacketAt := now, vadIter := heardIter it packet t.state } := by
    have equation := handlePacket_eq cfg it packet now t.state
    rw [reply] at equation
    simpa only [channelStep, quiet, Bool.false_eq_true, if_false] using equation
  have passes : passing cfg it t (.packet packet now) = waiting t.state ++ [spoken packet] := by
    simp [passing, reply]
  have traced := tracedStep_of packet.channelId 0 step passes
    (by simp [waiting]) none (by simp [finals, h.quiet quiet])
  rw [traced]
  refine ⟨.started packet now rfl reply rfl rfl rfl rfl, ?_⟩
  simp [waiting, spoken, Function.comp_def]

/-- A packet that ends speech: the segment is closed with the packet's chunk in it. -/
theorem tracedStep_ended (packet : AudioPacket) (now : ℚ) {t : Traced σ}
    (h : Sound cfg it ok t) (reply : replyTo cfg it packet t.state = some .ended) :
    Outcome cfg it packet.channelId t (.packet packet now)
        (tracedStep cfg it packet.channelId t (.packet packet now)) ∧
      (tracedStep cfg it packet.channelId t (.packet packet now)).1.chunks.map Chunk.samples =
        (tracedStep cfg it packet.channelId t (.packet packet now)).1.state.segmentChunks := by
  obtain ⟨chunk, answer, _⟩ := replyTo_call reply
  have protocol := it.call_protocol t.state.vadIter chunk
  rw [answer] at protocol
  have speaking : t.state.triggered = true := h.coherent.iterator.trans protocol.1
  obtain ⟨startTs, segmentId, hs, hi⟩ := h.coherent.open speaking
  have step : channelStep cfg it packet.channelId t.state (.packet packet now) =
      endSegment packet { t.state with
        lastPacketAt := now, vadIter := heardIter it packet t.state
        segmentChunks := t.state.segmentChunks ++ [packet.samples] } := by
    have equation := handlePacket_eq cfg it packet now t.state
    rw [reply] at equation
    simpa only [channelStep, speaking, if_true] using equation
  simp only [endSegment] at step
  rw [finalizeSegment_open packet.channelId packet.timestamp
    (show _ = some startTs by simpa using hs) (show _ = some segmentId by simpa using hi)
    (by simp)] at step
  have passes : passing cfg it t (.packet packet now) = t.chunks ++ [spoken packet] := by
    simp [passing, reply]
  have traced := tracedStep_of packet.channelId (t.chunks.length + 1) step passes (by simp) none
    (by simp)
  rw [traced]
  refine ⟨.ended packet now rfl reply startTs segmentId hs ?_ rfl (h.coherent.speech speaking), ?_⟩
  · simp [emissions, made, ← h.chunks, List.flatMap_def, spoken]
  · simp

/-- A packet in the middle of speech: the cut check, then the partial. -/
theorem tracedStep_continued (packet : AudioPacket) (now : ℚ) {t : Traced σ}
    (h : Sound cfg it ok t) (reply : replyTo cfg it packet t.state = some .nothing)
    (speaking : t.state.triggered = true) :
    Outcome cfg it packet.channelId t (.packet packet now)
        (tracedStep cfg it packet.channelId t (.packet packet now)) ∧
      (tracedStep cfg it packet.channelId t (.packet packet now)).1.chunks.map Chunk.samples =
        (tracedStep cfg it packet.channelId t (.packet packet now)).1.state.segmentChunks := by
  obtain ⟨startTs, segmentId, hs, hi⟩ := h.coherent.open speaking
  let kept : ChannelState σ := { t.state with
    lastPacketAt := now, vadIter := heardIter it packet t.state
    segmentChunks := t.state.segmentChunks ++ [packet.samples] }
  have step : channelStep cfg it packet.channelId t.state (.packet packet now) =
      continueSegment cfg it packet kept := by
    have equation := handlePacket_eq cfg it packet now t.state
    rw [reply] at equation
    simpa only [channelStep, speaking, if_true, kept] using equation
  have passes : passing cfg it t (.packet packet now) = t.chunks ++ [spoken packet] := by
    simp [passing, reply, speaking]
  have same : (t.chunks ++ [spoken packet]).map Chunk.samples = kept.segmentChunks := by
    simp [kept, h.chunks, spoken]
  generalize hcut : (if cfg.segmentLimitsEnabled then maybeCut cfg it packet.channelId packet kept
    else (kept, [])) = cut
  -- first the cut check, on the buffer with the packet's chunk
  have checked : ∃ k head onward after, Checked cfg packet (cutAt cfg it packet t.state) startTs
      ⟨t.chunks ++ [spoken packet], t.cutFrom⟩ kept cut k head onward after := by
    rw [← hcut]
    by_cases limited : cfg.segmentLimitsEnabled = true
    · have found := @maybeCut_checked σ cfg it packet kept startTs segmentId hs hi
        ⟨t.chunks ++ [spoken packet], t.cutFrom⟩ same
      simpa [cutAt, limited, kept] using found
    · rw [if_neg limited]
      exact ⟨0, [], startTs, _, @Checked.none σ cfg packet _ kept startTs segmentId hs hi
        ⟨t.chunks ++ [spoken packet], t.cutFrom⟩ same kept.scores⟩
  obtain ⟨k, head, onward, after, checked⟩ := checked
  obtain ⟨id, hid⟩ := Option.isSome_iff_exists.mp checked.segmentId
  have left : (⟨(t.chunks ++ [spoken packet]).drop k, after.cutFrom⟩ : Held) = after := by
    rw [← checked.left]
  have gone : (t.chunks ++ [spoken packet]).length = k + cut.1.segmentChunks.length := by
    have inside := checked.inside
    rw [checked.buffer, checked.left, List.length_map, List.length_drop]
    simp only at inside ⊢
    omega
  have still : cut.1.triggered = true := checked.still.trans speaking
  have preroll : cut.1.preroll = [] := checked.preroll.trans (h.coherent.speech speaking)
  -- then the partial, on what is left
  obtain ⟨lastPartialS, shown, state', noFinal, shows, outcome⟩ :=
    maybeEmitPartial_shown packet checked.startTs hid checked.buffer
      ⟨(t.chunks ++ [spoken packet]).take k, t.cutFrom⟩
  by_cases paced : 0 < cfg.partialIntervalS
  · have whole : channelStep cfg it packet.channelId t.state (.packet packet now) =
        ({ cut.1 with lastPartialS := lastPartialS },
          cut.2 ++ (maybeEmitPartial cfg packet.channelId packet cut.1).2) := by
      rw [step, continueSegment, hcut]
      simp only [if_pos paced]
      rw [← state']
    rw [tracedStep_of packet.channelId k whole passes gone after.cutFrom
      (by simp [still, noFinal, checked.cutFrom]), left]
    refine ⟨.continued packet now rfl reply startTs hs head shown onward checked.cut outcome ?_
      checked.startTs preroll, checked.buffer.symm⟩
    rw [emissions_append, checked.emitted, shows]
  · have whole : channelStep cfg it packet.channelId t.state (.packet packet now) = cut := by
      rw [step, continueSegment, hcut]
      simp only [if_neg paced]
    rw [tracedStep_of packet.channelId k whole passes gone after.cutFrom
      (by simp [still, checked.cutFrom]), left]
    refine ⟨.continued packet now rfl reply startTs hs head [] onward checked.cut .silent ?_
      checked.startTs preroll, checked.buffer.symm⟩
    rw [checked.emitted, List.append_nil]

/-- A flush closes the segment in progress if a chunk of it is buffered. -/
theorem flush_traced (c : Str) {t : Traced σ} (h : Sound cfg it ok t) (event : VadEvent)
    (flush : channelStep cfg it c t.state event = flushChannel cfg it c t.state)
    (noPacket : ∀ packet now, event ≠ .packet packet now) :
    Outcome cfg it c t event (tracedStep cfg it c t event) ∧
      (tracedStep cfg it c t event).1.chunks.map Chunk.samples =
        (tracedStep cfg it c t event).1.state.segmentChunks := by
  have passes : passing cfg it t event = t.chunks := by
    cases event with
    | packet packet now => exact absurd rfl (noPacket packet now)
    | idleCheck now => rfl
    | flush => rfl
  have unchanged (same : flushChannel cfg it c t.state = (t.state, [])) :
      Outcome cfg it c t event (tracedStep cfg it c t event) ∧
        (tracedStep cfg it c t event).1.chunks.map Chunk.samples =
          (tracedStep cfg it c t event).1.state.segmentChunks := by
    rw [tracedStep_still c h (flush.trans same) passes rfl rfl]
    exact ⟨.quiet (fun packet now is => absurd is (noPacket packet now)) rfl rfl rfl rfl, h.chunks⟩
  by_cases speaking : t.state.triggered = true
  · obtain ⟨startTs, segmentId, hs, hi⟩ := h.coherent.open speaking
    by_cases empty : t.state.segmentChunks = []
    · exact unchanged (by simp [flushChannel, hs, empty])
    · have closed : channelStep cfg it c t.state event = _ := flush
      simp only [flushChannel, hs, if_neg empty] at closed
      rw [finalizeSegment_open c _ hs hi empty] at closed
      rw [tracedStep_of c t.chunks.length closed passes (by simp) none (by simp)]
      have nonempty : t.chunks ≠ [] := by
        intro none_held
        exact empty (by rw [← h.chunks, none_held, List.map_nil])
      refine ⟨.flushed noPacket startTs segmentId hs nonempty ?_ rfl rfl, by simp⟩
      simp [emissions, made, ← h.chunks, List.flatMap_def, Function.comp_def]
  · exact unchanged (by simp [flushChannel, (h.coherent.closed (by simpa using speaking)).1])

/-- The step lemma: what one event does to a trace that is sound. -/
theorem tracedStep_outcome (c : Str) {t : Traced σ} (h : Sound cfg it ok t) (event : VadEvent)
    (own : ∀ packet now, event = .packet packet now →
      packet.channelId = c ∧ ok packet.timestamp) :
    Outcome cfg it c t event (tracedStep cfg it c t event) ∧
      Sound cfg it ok (tracedStep cfg it c t event).1 := by
  have coherent : Coherent ok cfg it (tracedStep cfg it c t event).1.state :=
    (channelStep_run c h.coherent event own).2
  have quiet : (tracedStep cfg it c t event).1.state.triggered = false →
      (tracedStep cfg it c t event).1.cutFrom = none := by
    intro still
    simp only [tracedStep] at still ⊢
    simp [still]
  have step : Outcome cfg it c t event (tracedStep cfg it c t event) ∧
      (tracedStep cfg it c t event).1.chunks.map Chunk.samples =
        (tracedStep cfg it c t event).1.state.segmentChunks := by
    cases event with
    | packet packet now =>
      obtain ⟨rfl, _⟩ := own packet now rfl
      cases reply : replyTo cfg it packet t.state with
      | none => exact tracedStep_aside packet now h (Or.inl reply)
      | some answer =>
        cases answer with
        | raised => exact tracedStep_aside packet now h (Or.inr (Or.inl reply))
        | started => exact tracedStep_started packet now h reply
        | ended => exact tracedStep_ended packet now h reply
        | nothing =>
          by_cases speaking : t.state.triggered = true
          · exact tracedStep_continued packet now h reply speaking
          · exact tracedStep_aside packet now h
              (Or.inr (Or.inr ⟨reply, by simpa using speaking⟩))
    | idleCheck now =>
      by_cases due : ¬cfg.idleFlushS ≤ 0 ∧ cfg.idleFlushS ≤ now - t.state.lastPacketAt
      · exact flush_traced c h _ (by simp only [channelStep, if_neg due.1, if_pos due.2]) (by simp)
      · have still : channelStep cfg it c t.state (.idleCheck now) = (t.state, []) := by
          simp only [channelStep]
          split
          · rfl
          rename_i enabled
          exact if_neg fun late => due ⟨enabled, late⟩
        rw [tracedStep_still c h still rfl rfl rfl]
        exact ⟨.quiet (by simp) rfl rfl rfl rfl, h.chunks⟩
    | flush => exact flush_traced c h _ rfl (by simp)
  exact ⟨step.1, coherent, step.2, quiet⟩

theorem Sound.closed {t : Traced σ} (h : Sound cfg it ok t) (quiet : t.state.triggered = false) :
    t.chunks = [] := by
  have empty := h.coherent.idle quiet
  rw [← h.chunks] at empty
  simpa using empty

/-- What holds of the chunks that come in holds of those kept and of those emitted. -/
theorem Outcome.chunks_of {c : Str} {t : Traced σ} {event : VadEvent}
    {r : Traced σ × List Emission} (outcome : Outcome cfg it c t event r)
    (after : Sound cfg it ok r.1) {P : Chunk → Prop} (held : ∀ chunk ∈ t.chunks, P chunk)
    (preroll : ∀ chunk ∈ waiting t.state, P chunk)
    (heard : ∀ packet now, event = .packet packet now → raises cfg it packet t.state = false →
      ∀ speech, P ⟨packet.timestamp, packet.samples, speech⟩) :
    (∀ chunk ∈ r.1.chunks, P chunk) ∧ (∀ chunk ∈ waiting r.1.state, P chunk) ∧
      ∀ e ∈ r.2, ∀ chunk ∈ e.chunks, P chunk := by
  have idle (still : r.1.state.triggered = false) : ∀ chunk ∈ r.1.chunks, P chunk := by
    simp [after.closed still]
  have empty (none_waiting : r.1.state.preroll = []) : ∀ chunk ∈ waiting r.1.state, P chunk := by
    simp [waiting, none_waiting]
  cases outcome with
  | quiet lost silent same startTs kept =>
    refine ⟨?_, ?_, by simp [silent]⟩
    · rw [same]
      exact held
    · rw [waiting, kept]
      exact preroll
  | waited packet now received accepted silent still kept =>
    refine ⟨idle still, ?_, by simp [silent]⟩
    intro chunk member
    rw [waiting, kept] at member
    obtain ⟨entry, inside, rfl⟩ := List.mem_map.mp member
    rcases List.mem_append.mp ((pushPreroll_sublist packet t.state).subset inside) with old | new
    · exact preroll _ (List.mem_map_of_mem old)
    · rw [List.mem_singleton.mp new]
      exact heard packet now received accepted false
  | started packet now received reply silent same startTs kept =>
    refine ⟨?_, empty kept, by simp [silent]⟩
    intro chunk member
    rw [same] at member
    rcases List.mem_append.mp member with old | new
    · exact preroll chunk old
    · rw [List.mem_singleton.mp new]
      exact heard packet now received (by simp [raises_of_reply reply]) true
  | ended packet now received reply startTs segmentId begun emitted still kept =>
    refine ⟨idle still, empty kept, ?_⟩
    intro e member chunk inside
    rw [emitted, List.mem_singleton] at member
    subst member
    rcases List.mem_append.mp inside with old | new
    · exact held chunk old
    · rw [List.mem_singleton.mp new]
      exact heard packet now received (by simp [raises_of_reply reply]) true
  | continued packet now received reply startTs begun head shown onward cut partials emitted
      startTs' kept =>
    have all : ∀ chunk ∈ t.chunks ++ [spoken packet], P chunk := by
      intro chunk member
      rcases List.mem_append.mp member with old | new
      · exact held chunk old
      · rw [List.mem_singleton.mp new]
        exact heard packet now received (by simp [raises_of_reply reply]) true
    have first : (∀ chunk ∈ r.1.chunks, P chunk) ∧ ∀ e ∈ head, ∀ chunk ∈ e.chunks, P chunk := by
      generalize r.1.toHeld = left at cut
      cases cut with
      | whole => exact ⟨all, by simp⟩
      | cut k segmentId found pos inside =>
        refine ⟨fun chunk member => all chunk (List.mem_of_mem_drop member), ?_⟩
        intro e member chunk inside
        rw [List.mem_singleton] at member
        subst member
        exact all chunk (List.mem_of_mem_take inside)
    refine ⟨first.1, empty kept, ?_⟩
    intro e member chunk inside
    rw [emitted, List.mem_append] at member
    rcases member with cutOff | partly
    · exact first.2 e cutOff chunk inside
    · cases partials with
      | silent => simp at partly
      | shown segmentId nonempty =>
        rw [List.mem_singleton] at partly
        subst partly
        exact first.1 chunk inside
  | flushed noPacket startTs segmentId begun nonempty emitted still kept =>
    refine ⟨idle still, ?_, ?_⟩
    · rw [waiting, kept]
      exact preroll
    · intro e member chunk inside
      rw [emitted, List.mem_singleton] at member
      subst member
      exact held chunk inside

/-- Every emitted segment's audio is that of its chunks. -/
theorem Outcome.audio {c : Str} {t : Traced σ} {event : VadEvent} {r : Traced σ × List Emission}
    (outcome : Outcome cfg it c t event r) :
    ∀ e ∈ r.2, e.segment.audio = e.chunks.flatMap Chunk.samples := by
  intro e member
  cases outcome with
  | quiet lost silent => simp [silent] at member
  | waited packet now received accepted silent => simp [silent] at member
  | started packet now received reply silent => simp [silent] at member
  | ended packet now received reply startTs segmentId begun emitted =>
    rw [emitted, List.mem_singleton] at member
    rw [member]
    rfl
  | continued packet now received reply startTs begun head shown onward cut partials emitted =>
    rw [emitted, List.mem_append] at member
    rcases member with cutOff | partly
    · generalize r.1.toHeld = left at cut
      cases cut with
      | whole => simp at cutOff
      | cut k segmentId found pos inside =>
        rw [List.mem_singleton.mp cutOff]
        rfl
    · cases partials with
      | silent => simp at partly
      | shown segmentId nonempty =>
        rw [List.mem_singleton.mp partly]
        rfl
  | flushed noPacket startTs segmentId begun nonempty emitted =>
    rw [emitted, List.mem_singleton] at member
    rw [member]
    rfl

section Runs

theorem Sound.fresh (iterators : Str → σ) (c : Str) :
    Sound cfg it ok ⟨{}, freshChannels it iterators c⟩ :=
  ⟨freshChannels_coherent ok cfg it iterators c, rfl, fun _ => rfl⟩

/-- The trace's own state and segments are those of the channel. -/
theorem tracedStep_run (c : Str) (t : Traced σ) (events : List VadEvent) :
    (outputs (tracedStep cfg it c) t events).1.state =
        (outputs (channelStep cfg it c) t.state events).1 ∧
      (outputs (tracedStep cfg it c) t events).2.map Emission.segment =
        puts (outputs (channelStep cfg it c) t.state events).2 := by
  have segments (left kept : Held) (effects : List Effect) :
      (emissions left kept effects).map Emission.segment = puts effects := by
    induction effects with
    | nil => rfl
    | cons effect effects ih => cases effect <;> simpa [emissions, puts] using ih
  induction events generalizing t with
  | nil => exact ⟨rfl, rfl⟩
  | cons event events ih =>
    obtain ⟨state, emitted⟩ := ih (tracedStep cfg it c t event).1
    refine ⟨state, ?_⟩
    rw [outputs_cons, outputs_cons, List.map_append, emitted, puts_append]
    congr 1
    exact segments _ _ _

variable (cfg it)

/-- A channel's trace over a run of the worker. -/
def traced (iterators : Str → σ) (c : Str) (events : List VadEvent) :
    Traced σ × List Emission :=
  outputs (tracedStep cfg it c) ⟨{}, freshChannels it iterators c⟩ (events.filter (concerns c))

/-- The trace follows the worker: its state is the channel's, its segments are those the
worker puts, in order, and their audio is that of the chunks. -/
theorem traced_faithful (keys : ChannelKeys) (iterators : Str → σ) {c : Str}
    (configured : c ∈ keys.val) (events : List VadEvent) :
    (traced cfg it iterators c events).1.state = reached cfg it keys iterators events c ∧
      (traced cfg it iterators c events).2.map Emission.segment =
        puts (effectsOn c
          (outputs (workerStep cfg it keys) (freshChannels it iterators) events).2) := by
  obtain ⟨state, segments⟩ := @tracedStep_run σ cfg it c ⟨{}, freshChannels it iterators c⟩
    (events.filter (concerns c))
  rw [← worker_on_channel cfg it keys (freshChannels it iterators) events configured]
    at state segments
  exact ⟨state, segments⟩

theorem traced_concat (iterators : Str → σ) (c : Str) (past : List VadEvent) (event : VadEvent) :
    traced cfg it iterators c (past ++ [event]) =
      if concerns c event then
        ((tracedStep cfg it c (traced cfg it iterators c past).1 event).1,
          (traced cfg it iterators c past).2 ++
            (tracedStep cfg it c (traced cfg it iterators c past).1 event).2)
      else traced cfg it iterators c past := by
  unfold traced
  rw [List.filter_append, outputs_append]
  by_cases mine : concerns c event = true
  · rw [if_pos mine, List.filter_cons_of_pos mine]
    simp
  · rw [if_neg mine, List.filter_cons_of_neg mine]
    simp

theorem traced_sound (iterators : Str → σ) (c : Str) (events : List VadEvent) :
    Sound cfg it (fun _ => True) (traced cfg it iterators c events).1 := by
  induction events using List.reverseRecOn with
  | nil => exact Sound.fresh iterators c
  | append_singleton past event ih =>
    rw [traced_concat]
    by_cases mine : concerns c event = true
    · rw [if_pos mine]
      refine (tracedStep_outcome c ih event ?_).2
      rintro packet now rfl
      exact ⟨by simpa [concerns] using mine, trivial⟩
    · rw [if_neg mine]
      exact ih

/-- The run rule: an invariant of the events since some start, the trace and its emissions
holds on if every event keeps it that does to the trace what `Outcome` says. -/
theorem traced_history_from (iterators : Str → σ) (c : Str) (start : List VadEvent)
    {I : List VadEvent → Traced σ → List Emission → Prop}
    (initial : I [] (traced cfg it iterators c start).1 (traced cfg it iterators c start).2)
    (other : ∀ seen event t emitted, I seen t emitted → concerns c event = false →
      I (seen ++ [event]) t emitted)
    (step : ∀ seen event t emitted r, I seen t emitted →
      t = (traced cfg it iterators c (start ++ seen)).1 →
      Sound cfg it (fun _ => True) t → Sound cfg it (fun _ => True) r.1 →
      (∀ packet now, event = .packet packet now → packet.channelId = c) →
      Outcome cfg it c t event r → I (seen ++ [event]) r.1 (emitted ++ r.2))
    (later : List VadEvent) :
    I later (traced cfg it iterators c (start ++ later)).1
      (traced cfg it iterators c (start ++ later)).2 := by
  induction later using List.reverseRecOn with
  | nil => simpa using initial
  | append_singleton seen event ih =>
    rw [← List.append_assoc, traced_concat]
    have sound := traced_sound cfg it iterators c (start ++ seen)
    by_cases mine : concerns c event = true
    · rw [if_pos mine]
      have own : ∀ packet now, event = .packet packet now → packet.channelId = c := by
        rintro packet now rfl
        simpa [concerns] using mine
      obtain ⟨outcome, after⟩ := tracedStep_outcome c sound event
        fun packet now received => ⟨own packet now received, trivial⟩
      exact step seen event _ _ _ ih rfl sound after own outcome
    · rw [if_neg mine]
      exact other seen event _ _ ih (by simpa using mine)

/-- The same over a whole run. -/
theorem traced_history (iterators : Str → σ) (c : Str)
    {I : List VadEvent → Traced σ → List Emission → Prop}
    (initial : I [] ⟨{}, freshChannels it iterators c⟩ [])
    (other : ∀ past event t emitted, I past t emitted → concerns c event = false →
      I (past ++ [event]) t emitted)
    (step : ∀ past event t emitted r, I past t emitted → t = (traced cfg it iterators c past).1 →
      Sound cfg it (fun _ => True) t → Sound cfg it (fun _ => True) r.1 →
      (∀ packet now, event = .packet packet now → packet.channelId = c) →
      Outcome cfg it c t event r → I (past ++ [event]) r.1 (emitted ++ r.2))
    (events : List VadEvent) :
    I events (traced cfg it iterators c events).1 (traced cfg it iterators c events).2 := by
  have whole := traced_history_from cfg it iterators c [] initial other step events
  simpa only [List.nil_append] using whole

/-- Every emitted segment's audio is that of its chunks. -/
theorem traced_audio (iterators : Str → σ) (c : Str) (events : List VadEvent) :
    ∀ e ∈ (traced cfg it iterators c events).2,
      e.segment.audio = e.chunks.flatMap Chunk.samples := by
  refine traced_history cfg it iterators c
    (I := fun _ _ emitted => ∀ e ∈ emitted, e.segment.audio = e.chunks.flatMap Chunk.samples)
    (by simp) (fun _ _ _ _ before _ => before) ?_ events
  intro past event t emitted r before _ _ _ _ outcome e member
  rcases List.mem_append.mp member with old | new
  · exact before e old
  · exact outcome.audio e new

/-- Every chunk, buffered, waiting or emitted, came in a packet of the channel. -/
theorem traced_received (iterators : Str → σ) (c : Str) (events : List VadEvent) :
    (∀ chunk ∈ (traced cfg it iterators c events).1.chunks,
        chunk.timestamp ∈ stampsOn c events) ∧
      (∀ chunk ∈ waiting (traced cfg it iterators c events).1.state,
        chunk.timestamp ∈ stampsOn c events) ∧
      ∀ e ∈ (traced cfg it iterators c events).2, ∀ chunk ∈ e.chunks,
        chunk.timestamp ∈ stampsOn c events := by
  refine traced_history cfg it iterators c
    (I := fun past t emitted => (∀ chunk ∈ t.chunks, chunk.timestamp ∈ stampsOn c past) ∧
      (∀ chunk ∈ waiting t.state, chunk.timestamp ∈ stampsOn c past) ∧
      ∀ e ∈ emitted, ∀ chunk ∈ e.chunks, chunk.timestamp ∈ stampsOn c past) ?_ ?_ ?_ events
  · exact ⟨by simp, by simp [waiting, freshChannels], by simp⟩
  · intro past event t emitted before _
    have kept {stamp : ℚ} (old : stamp ∈ stampsOn c past) :
        stamp ∈ stampsOn c (past ++ [event]) := by
      rw [stampsOn_append]
      exact List.mem_append_left _ old
    exact ⟨fun chunk member => kept (before.1 chunk member),
      fun chunk member => kept (before.2.1 chunk member),
      fun e member chunk inside => kept (before.2.2 e member chunk inside)⟩
  · intro past event t emitted r before _ _ after own outcome
    have kept {stamp : ℚ} (old : stamp ∈ stampsOn c past) :
        stamp ∈ stampsOn c (past ++ [event]) := by
      rw [stampsOn_append]
      exact List.mem_append_left _ old
    obtain ⟨chunks, preroll, now⟩ := outcome.chunks_of after
      (P := fun chunk => chunk.timestamp ∈ stampsOn c (past ++ [event]))
      (fun chunk member => kept (before.1 chunk member))
      (fun chunk member => kept (before.2.1 chunk member)) (by
        intro packet now received _ _
        have member : .packet packet now ∈ past ++ [event] := by simp [received]
        exact mem_stampsOn member (own packet now received))
    refine ⟨chunks, preroll, ?_⟩
    intro e member chunk inside
    rcases List.mem_append.mp member with old | new
    · exact kept (before.2.2 e old chunk inside)
    · exact now e new chunk inside

end Runs

end EdgeVoice.ChunkTrace
