import EdgeVoice.Models

/-! VADWorker: one thread that demultiplexes routed packets by channel and turns
each channel's packets into segments. Every method below is the method of the
same name, from a channel state to the next one and the puts it makes.

silero's VADIterator and the model it wraps are outside the repository. They
enter as an arbitrary machine of which only the start/end protocol is known, so
any answers, scores and failures are covered. Clock readings are inputs. The
latency dictionaries and the log are left out; float32 rounding is not modelled. -/

namespace EdgeVoice.VadWorker
open PythonText Models

/-- VADIterator.__init__ refuses every rate but 8000 and 16000, so a worker never
runs with a rate of zero. -/
structure VADWorkerConfig where
  threshold : ℚ := 1 / 2
  sampleRate : ℕ := 16000
  rmsGateEnabled : Bool := true
  silenceRmsFloor : ℚ := 1 / 100
  prerollChunks : ℤ := 3
  minSilenceDurationMs : ℤ := 100
  speechPadMs : ℤ := 30
  idleFlushS : ℚ := 2
  segmentLimitsEnabled : Bool := false
  maxSegmentS : ℚ := 7
  softCutEnabled : Bool := true
  softCutS : ℚ := 5
  softCutLookaheadS : ℚ := 1
  softCutMinDip : ℚ := 1 / 10
  partialIntervalS : ℚ := 0
  partialMinSegmentS : ℚ := 3 / 2
  sampleRate_pos : 0 < sampleRate := by decide

/-- `None`, `{"start": t}`, `{"end": t}`, or an exception out of the model. -/
inductive VADReply
  | nothing
  | started
  | ended
  | raised
deriving DecidableEq

/-- A VADIterator over the score-capturing model: `start` only when it is not
triggered, `end` only when it is, and `reset_states` makes it not triggered. -/
structure VADIterator (σ : Type) where
  triggered : σ → Bool
  lastScore : σ → ℚ
  call : σ → List ℚ → VADReply × σ
  resetStates : σ → σ
  call_protocol : ∀ s chunk,
    match (call s chunk).1 with
    | .started => triggered s = false ∧ triggered (call s chunk).2 = true
    | .ended => triggered s = true ∧ triggered (call s chunk).2 = false
    | .nothing => triggered (call s chunk).2 = triggered s
    | .raised => triggered (call s chunk).2 = triggered s
  reset_protocol : ∀ s, triggered (resetStates s) = false

structure ChannelState (σ : Type) where
  vadIter : σ
  triggered : Bool := false
  preroll : List (ℚ × List UInt8) := []
  segmentChunks : List (List UInt8) := []
  segmentStartTs : Option ℚ := none
  segmentId : Option Str := none
  segCounter : ℕ := 0
  lastPacketAt : ℚ := 0
  scores : List (ℕ × ℚ) := []
  lastPartialS : ℚ := 0

/-- What a method does besides changing the channel state, in order: mint an id,
`put_nowait` on the segment queue, `fanout_put` on the segment and dump queues. -/
inductive Effect
  | minted (segmentId : Str)
  | putNowait (segment : SpeechSegment)
  | fanoutPut (segment : SpeechSegment)
deriving DecidableEq

variable {σ : Type} (cfg : VADWorkerConfig) (it : VADIterator σ)

/-- `f"{channel_id}-{start_ts:.3f}-{counter}"`. -/
def segmentIdText (channelId : Str) (startTs : ℚ) (counter : ℕ) : Str :=
  (channelId ++ '-' :: fixed3 startTs) ++ '-' :: decimal counter

/-- Every caller has just established `segment_start_ts`, passed here as `startTs`. -/
def newSegmentId (channelId : Str) (startTs : ℚ) (state : ChannelState σ) :
    ChannelState σ × List Effect :=
  let segmentId := segmentIdText channelId startTs (state.segCounter + 1)
  ({ state with segCounter := state.segCounter + 1, segmentId := some segmentId },
    [.minted segmentId])

/-- `state.segment_id or self._new_segment_id(channel_id, state)`. -/
def segmentIdOrNew (channelId : Str) (startTs : ℚ) (state : ChannelState σ) :
    Str × ChannelState σ × List Effect :=
  match state.segmentId with
  | some segmentId => (segmentId, state, [])
  | none => (segmentIdText channelId startTs (state.segCounter + 1),
      newSegmentId channelId startTs state)

def finalizeSegment (channelId : Str) (endTs : ℚ) (state : ChannelState σ) :
    ChannelState σ × List Effect :=
  match state.segmentStartTs with
  | none => (state, [])
  | some startTs =>
    if state.segmentChunks = [] then (state, [])
    else
      let named := segmentIdOrNew channelId startTs state
      ({ named.2.1 with
          segmentChunks := [], segmentStartTs := none, segmentId := none, lastPartialS := 0 },
        named.2.2 ++ [.fanoutPut
          { channelId := channelId, start := startTs, endTs := endTs,
            audio := state.segmentChunks.flatten, segmentId := named.1 }])

/-- Emit the first `cutIdx` chunks; the rest become a new segment. -/
def cutSegment (channelId : Str) (cutIdx : ℕ) (chunkS : ℚ) (state : ChannelState σ) :
    ChannelState σ × List Effect :=
  match state.segmentStartTs with
  | none => (state, [])
  | some startTs =>
    if cutIdx = 0 ∨ state.segmentChunks.length < cutIdx then (state, [])
    else
      let cutTs := startTs + cutIdx * chunkS
      let head := finalizeSegment channelId cutTs
        { state with segmentChunks := state.segmentChunks.take cutIdx }
      let tail := newSegmentId channelId cutTs
        { head.1 with
          segmentChunks := state.segmentChunks.drop cutIdx
          segmentStartTs := some cutTs
          scores := (head.1.scores.filter (cutIdx ≤ ·.1)).map fun p => (p.1 - cutIdx, p.2) }
      (tail.1, head.2 ++ tail.2)

/-- `int(x)`: towards zero. -/
def truncate (x : ℚ) : ℤ := if 0 ≤ x then ⌊x⌋ else ⌈x⌉

def maybeCut (channelId : Str) (packet : AudioPacket) (state : ChannelState σ) :
    ChannelState σ × List Effect :=
  let samplesPerChunk := packet.samples.length / 2
  if samplesPerChunk ≤ 0 then (state, [])
  else
    let chunkS : ℚ := samplesPerChunk / cfg.sampleRate
    let nChunks := state.segmentChunks.length
    let segS := nChunks * chunkS
    if cfg.maxSegmentS ≤ segS then cutSegment channelId nChunks chunkS state
    else if cfg.softCutEnabled = false then (state, [])
    else if segS < cfg.softCutS - cfg.softCutLookaheadS then (state, [])
    else
      let lastScore := it.lastScore state.vadIter
      let scores := state.scores ++ [(nChunks - 1, lastScore)]
      let scored := { state with scores := scores }
      if segS < cfg.softCutS then (scored, [])
      else
        let lookaheadChunks := (max 1 (truncate (cfg.softCutLookaheadS / chunkS))).toNat
        -- `scores[-lookahead_chunks:]`; `min` returns the first of equal minima
        match (scores.drop (scores.length - lookaheadChunks)).argmin Prod.snd with
        | none => (scored, [])
        | some (minIdx, minScore) =>
          if minScore < lastScore - cfg.softCutMinDip then
            cutSegment channelId (minIdx + 1) chunkS scored
          else (scored, [])

def emitPartial (channelId : Str) (startTs segS : ℚ) (state : ChannelState σ) :
    ChannelState σ × List Effect :=
  let named := segmentIdOrNew channelId startTs state
  (named.2.1, named.2.2 ++ [.putNowait
    { channelId := channelId, start := startTs, endTs := startTs + segS,
      audio := state.segmentChunks.flatten, segmentId := named.1, isPartial := true }])

def maybeEmitPartial (channelId : Str) (packet : AudioPacket) (state : ChannelState σ) :
    ChannelState σ × List Effect :=
  let samplesPerChunk := packet.samples.length / 2
  match state.segmentStartTs with
  | none => (state, [])
  | some startTs =>
    if samplesPerChunk ≤ 0 ∨ state.segmentChunks = [] then (state, [])
    else
      let segS : ℚ := state.segmentChunks.length * (samplesPerChunk / cfg.sampleRate)
      if segS < cfg.partialMinSegmentS then (state, [])
      else if segS - state.lastPartialS < cfg.partialIntervalS then (state, [])
      else emitPartial channelId startTs segS { state with lastPartialS := segS }

/-- The cut check comes first, so a partial describes the re-seeded tail. -/
def continueSegment (packet : AudioPacket) (state : ChannelState σ) :
    ChannelState σ × List Effect :=
  let cut :=
    if cfg.segmentLimitsEnabled then maybeCut cfg it packet.channelId packet state
    else (state, [])
  if 0 < cfg.partialIntervalS then
    let shown := maybeEmitPartial cfg packet.channelId packet cut.1
    (shown.1, cut.2 ++ shown.2)
  else cut

def startSegment (packet : AudioPacket) (state : ChannelState σ) :
    ChannelState σ × List Effect :=
  let startTs := (state.preroll.head?.map Prod.fst).getD packet.timestamp
  newSegmentId packet.channelId startTs
    { state with
      triggered := true
      segmentChunks := state.preroll.map Prod.snd ++ [packet.samples]
      segmentStartTs := some startTs
      preroll := []
      scores := []
      lastPartialS := 0 }

def endSegment (packet : AudioPacket) (state : ChannelState σ) :
    ChannelState σ × List Effect :=
  let closed := finalizeSegment packet.channelId packet.timestamp { state with triggered := false }
  ({ closed.1 with scores := [] }, closed.2)

def pushPreroll (packet : AudioPacket) (state : ChannelState σ) : ChannelState σ :=
  let preroll := state.preroll ++ [(packet.timestamp, packet.samples)]
  { state with
    preroll := if cfg.prerollChunks < preroll.length then preroll.tail else preroll }

/-- `rms < floor`, squared to stay rational. The mean of an empty tensor is nan,
which is below nothing. -/
def rmsBelow (chunk : List ℚ) (floor : ℚ) : Bool :=
  chunk ≠ [] && 0 < floor && (chunk.map (· ^ 2)).sum / chunk.length < floor ^ 2

/-- One packet under run()'s `except Exception`: a packet that does not decode, or
on which the model raises, is logged and leaves only its arrival time behind. -/
def handlePacket (packet : AudioPacket) (now : ℚ) (state : ChannelState σ) :
    ChannelState σ × List Effect :=
  let state := { state with lastPacketAt := now }
  match pcmToFloat packet.samples with
  | none => (state, [])
  | some chunk =>
    if cfg.rmsGateEnabled && !state.triggered && rmsBelow chunk cfg.silenceRmsFloor then
      (pushPreroll cfg packet state, [])
    else
      let answer := it.call state.vadIter chunk
      let heard := { state with vadIter := answer.2 }
      let kept :=
        if heard.triggered then
          { heard with segmentChunks := heard.segmentChunks ++ [packet.samples] }
        else heard
      match answer.1 with
      | .raised => (heard, [])
      | .started => startSegment packet kept
      | .ended => endSegment packet kept
      | .nothing =>
        if kept.triggered then continueSegment cfg it packet kept
        else (pushPreroll cfg packet kept, [])

def flushChannel (channelId : Str) (state : ChannelState σ) : ChannelState σ × List Effect :=
  match state.segmentStartTs with
  | none => (state, [])
  | some startTs =>
    if state.segmentChunks = [] then (state, [])
    else
      let nSamples := (state.segmentChunks.map List.length).sum / 2
      let closed := finalizeSegment channelId (startTs + nSamples / cfg.sampleRate) state
      ({ closed.1 with
          triggered := false, scores := [], vadIter := it.resetStates closed.1.vadIter },
        closed.2)

/-- Nothing in the repository calls it yet. It discards the segment in progress. -/
def resetChannel (state : ChannelState σ) : ChannelState σ :=
  { state with
    vadIter := it.resetStates state.vadIter
    triggered := false
    preroll := []
    segmentChunks := []
    segmentStartTs := none
    segmentId := none
    scores := [] }

/-- What reaches the worker: a routed packet and the clock it is read at, an idle
check and its clock reading, or a direct `flush` (the shutdown flush is the last). -/
inductive VadEvent
  | packet (packet : AudioPacket) (now : ℚ)
  | idleCheck (now : ℚ)
  | flush
deriving DecidableEq

/-- One channel's part of an event. -/
def channelStep (channelId : Str) (state : ChannelState σ) :
    VadEvent → ChannelState σ × List Effect
  | .packet packet now => handlePacket cfg it packet now state
  | .idleCheck now =>
    if cfg.idleFlushS ≤ 0 then (state, [])
    else if cfg.idleFlushS ≤ now - state.lastPacketAt then flushChannel cfg it channelId state
    else (state, [])
  | .flush => flushChannel cfg it channelId state

/-- The worker's dictionary of channel states; only the configured keys are read. -/
abbrev Channels (σ : Type) := Str → ChannelState σ

/-- The dictionary's keys, in insertion order. -/
abbrev ChannelKeys := {channelIds : List Str // channelIds.Nodup}

/-- Visit the configured channels in order, each with its own part of the event. -/
def forEachChannel (keys : ChannelKeys) (channels : Channels σ) (event : VadEvent) :
    Channels σ × List (Str × Effect) :=
  (fun c => if c ∈ keys.val then (channelStep cfg it c (channels c) event).1 else channels c,
    keys.val.flatMap fun c => (channelStep cfg it c (channels c) event).2.map (c, ·))

/-- `_handle_packet`, `_flush_idle` and `flush` on the whole worker. A packet of an
unknown channel is a KeyError, caught and logged by run(). -/
def workerStep (keys : ChannelKeys) (channels : Channels σ) (event : VadEvent) :
    Channels σ × List (Str × Effect) :=
  match event with
  | .packet packet now =>
    if packet.channelId ∈ keys.val then
      let handled := handlePacket cfg it packet now (channels packet.channelId)
      (Function.update channels packet.channelId handled.1,
        handled.2.map (packet.channelId, ·))
    else (channels, [])
  | .idleCheck now => forEachChannel cfg it keys channels (.idleCheck now)
  | .flush => forEachChannel cfg it keys channels .flush

/-- The worker as constructed: fresh state for every channel over its own iterator,
whose constructor ends with `reset_states()`. -/
def freshChannels (iterators : Str → σ) : Channels σ :=
  fun c => { vadIter := it.resetStates (iterators c) }

def ungated : VADWorkerConfig := { rmsGateEnabled := false }

def channelR : ChannelKeys := ⟨[['r']], by simp⟩

/-- An iterator that goes by level alone: a chunk of zeros is not speech. -/
def levelIterator : VADIterator Bool where
  triggered := id
  lastScore _ := 0
  call speaking chunk :=
    if chunk.all (· = 0) then (if speaking then .ended else .nothing, false)
    else (if speaking then .nothing else .started, true)
  resetStates _ := false
  call_protocol := by
    intro speaking chunk
    by_cases zero : chunk.all (· = 0) = true <;> cases speaking <;> simp [zero]
  reset_protocol _ := rfl

/-- An iterator to which everything is speech, louder chunks more so. -/
def loudnessIterator : VADIterator (Bool × ℚ) where
  triggered := Prod.fst
  lastScore := Prod.snd
  call state chunk := (if state.1 then .nothing else .started, (true, chunk.sum))
  resetStates _ := (false, 0)
  call_protocol := by
    rintro ⟨speaking, score⟩ chunk
    cases speaking <;> simp
  reset_protocol _ := rfl

end EdgeVoice.VadWorker
