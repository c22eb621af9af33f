import EdgeVoice.ChannelRouter
import EdgeVoice.StagedPipeline
import EdgeVoice.VadWorker

/-! stop() over ChannelRouter, VADWorker and the STT workers: each is signalled after
the one before it has returned. VADWorker puts the segments of its shutdown flush
before it returns, so they are on their queues when the STT workers are flagged; but
a worker tests its flag before it looks at its queue again. The MQTT callback feeds
the first queue until its source has returned; the debug dumps are left out, and what
`_handle_segment` does with a segment is not looked at here. -/

namespace EdgeVoice.ShutdownDrain
open PythonText Models VadWorker ChannelRouter StepSystem PolledMailbox StagedPipeline

inductive Worker
  | router
  | vad
  | stt (channelId : Str)
deriving DecidableEq

/-- What stop() depends on of the settings: the channels, the stages' configuration,
the queue sizes, and whether each STT worker is a child process. -/
structure PipelineConfig (σ : Type) where
  channelIds : ChannelKeys
  repacketizer : Repacketizer
  vad : VADWorkerConfig
  iterator : VADIterator σ
  ingest : ℕ := 256
  routed : ℕ := 128
  segment : ℕ := 64
  useProcesses : Bool := true

def Item : Worker → Type
  | .router => AudioPacket
  | .vad => AudioPacket
  | .stt _ => SpeechSegment

def Memory (σ : Type) : Worker → Type
  | .router => Buffers
  | .vad => Channels σ
  | .stt _ => Unit

/-- Who puts on the worker's queue; the router's is fed by the MQTT callback. -/
def producer : Worker → Option Worker
  | .router => none
  | .vad => some .router
  | .stt _ => some .vad

/-- The puts among the effects, each on its channel's segment queue. -/
def segmentPuts (effects : List (Str × Effect)) :
    List (Σ j : {j // producer j = some .vad}, Item j.1) :=
  effects.filterMap fun
    | (_, .minted _) => none
    | (c, .putNowait segment) => some ⟨⟨.stt c, rfl⟩, segment⟩
    | (c, .fanoutPut segment) => some ⟨⟨.stt c, rfl⟩, segment⟩

variable {σ : Type} (cfg : PipelineConfig σ)

/-- `_get_workers`, without the source and the dumps. -/
def getWorkers : List Worker := .router :: .vad :: cfg.channelIds.val.map .stt

def handle : (i : Worker) → Memory σ i → Item i → ℚ →
    Memory σ i × List (Σ j : {j // producer j = some i}, Item j.1)
  | .router => fun buffers packet _ =>
    let routed := routePacket cfg.repacketizer cfg.channelIds.val buffers packet
    (routed.1, routed.2.map fun frame => ⟨⟨.vad, rfl⟩, frame⟩)
  | .vad => fun channels packet now =>
    let handled := workerStep cfg.vad cfg.iterator cfg.channelIds channels (.packet packet now)
    (handled.1, segmentPuts handled.2)
  | .stt _ => fun _ _ _ => ((), [])

/-- `_flush_idle`; the other loops have no idle check. -/
def idle : (i : Worker) → Memory σ i → ℚ →
    Memory σ i × List (Σ j : {j // producer j = some i}, Item j.1)
  | .router => fun buffers _ => (buffers, [])
  | .vad => fun channels now =>
    let checked := workerStep cfg.vad cfg.iterator cfg.channelIds channels (.idleCheck now)
    (checked.1, segmentPuts checked.2)
  | .stt _ => fun _ _ => ((), [])

/-- `flush("shutdown")` after VADWorker's loop. -/
def close : (i : Worker) → Memory σ i →
    Memory σ i × List (Σ j : {j // producer j = some i}, Item j.1)
  | .router => fun buffers => (buffers, [])
  | .vad => fun channels =>
    let flushed := workerStep cfg.vad cfg.iterator cfg.channelIds channels .flush
    (flushed.1, segmentPuts flushed.2)
  | .stt _ => fun _ => ((), [])

theorem getWorkers_upstream (before : List Worker) (i : Worker) (after : List Worker)
    (order : getWorkers cfg = before ++ i :: after) (k : Worker) (feeds : producer i = some k) :
    k ∈ before := by
  cases before with
  | nil =>
    simp only [getWorkers, List.nil_append, List.cons.injEq] at order
    rw [← order.1] at feeds
    cases feeds
  | cons first before =>
    simp only [getWorkers, List.cons_append, List.cons.injEq] at order
    obtain ⟨atFirst, order⟩ := order
    cases before with
    | nil =>
      simp only [List.nil_append, List.cons.injEq] at order
      rw [← order.1] at feeds
      cases feeds
      simp [atFirst]
    | cons second before =>
      simp only [List.cons_append, List.cons.injEq] at order
      obtain ⟨atSecond, order⟩ := order
      have child : i ∈ cfg.channelIds.val.map Worker.stt := by simp [order]
      obtain ⟨c, _, rfl⟩ := List.mem_map.mp child
      cases feeds
      simp [atSecond]

/-- The orchestrator's pipeline as a staged one. -/
def pipeline : Design Worker where
  Item := Item
  State := Memory σ
  producer := producer
  order := getWorkers cfg
  maxsize
    | .router => cfg.ingest
    | .vad => cfg.routed
    | .stt _ => cfg.segment
  process
    | .stt _ => cfg.useProcesses
    | _ => false
  handle := handle cfg
  idle := idle cfg
  close := close cfg
  upstream := getWorkers_upstream cfg

/-- The workers as built: empty buffers and fresh channel states. -/
def built (iterators : Str → σ) : Pipeline (pipeline cfg) :=
  start (pipeline cfg) fun
    | .router => fun _ => {}
    | .vad => freshChannels cfg.iterator iterators
    | .stt _ => ()

variable {cfg}

/-- Everything put on the worker's queue was handed to its handler. -/
def HandledAll (p : Pipeline (pipeline cfg)) (worker : Worker) : Prop :=
  (p.stage worker).box.taken = (p.stage worker).box.put

/-- Nothing waits for the worker, or it is in its get and one readable item does. -/
def CaughtUp (p : Pipeline (pipeline cfg)) (worker : Worker) : Prop :=
  (p.stage worker).box.Settled ((p.stage worker).loop = .getting)

variable (cfg)

/-- In every run, a worker whose run() has returned was flagged at some step; it has
handled all that was put on its queue exactly if it had caught up when that step set its
flag. A child process reads through a feeder, and there the condition is enough. -/
theorem handled_all_iff_caught_up (iterators : Str → σ) {worker : Worker}
    {events : List (Event (pipeline cfg))} {s : Pipeline (pipeline cfg)}
    (reached : run pipelineStep (built cfg iterators) events = some s)
    (returned : (s.stage worker).loop = .done) :
    ∃ past event later m m', events = past ++ event :: later ∧
      run pipelineStep (built cfg iterators) past = some m ∧ pipelineStep m event = some m' ∧
      (m.stage worker).stopping = false ∧ (m'.stage worker).stopping = true ∧
      (CaughtUp m worker → HandledAll s worker) ∧
      ((pipeline cfg).process worker = false → (HandledAll s worker ↔ CaughtUp m worker)) := by
  obtain ⟨past, event, later, m, m', whole, running, flag, before, after, enough, needed⟩ :=
    flagged_before_return reached returned
  exact ⟨past, event, later, m, m', whole, running, flag, before, after, enough,
    fun inline => ⟨needed inline, enough⟩⟩

section LastUtterance

/-- One channel, whose packets are one-sample frames, with an STT thread. -/
def oneChannel : PipelineConfig Bool where
  channelIds := channelR
  repacketizer := ⟨2, 2, 1, by decide⟩
  vad := ungated
  iterator := levelIterator
  useProcesses := false

def atWorker (worker : Worker) (events : List LoopEvent) : List (Event (pipeline oneChannel)) :=
  events.map (Event.loop worker)

/-- Speech is in progress and the STT worker, idle so far, has come back from a get that
found nothing. VADWorker's shutdown flush puts the utterance before the STT worker is
signalled, and the STT worker tests its flag next. -/
def lastUtterance : List (Event (pipeline oneChannel)) :=
  [.arrive .router (⟨['r'], 0, [1, 0]⟩ : AudioPacket)] ++ atWorker .router [.test, .get 0] ++
    [.deliver .router] ++ atWorker .router [.handled 0, .resume] ++
    atWorker .vad [.test, .get 0, .handled 0, .resume] ++
    atWorker (.stt ['r']) [.test, .expire 0, .resume] ++ [.sourceReturns, .signal] ++
    atWorker .router [.test, .leave] ++ [.joined, .signal] ++ atWorker .vad [.test] ++
    [.deliver .vad] ++ atWorker .vad [.leave] ++ [.joined, .signal] ++
    atWorker (.stt ['r']) [.test, .leave] ++ [.joined]

theorem lastUtterance_dropped :
    ∃ s, run pipelineStep (built oneChannel fun _ => false) lastUtterance = some s ∧
      s.toStop = [] ∧ (s.stage (.stt ['r'])).loop = .done ∧ ¬HandledAll s (.stt ['r']) := by
  have counted : ∃ s ∈ run pipelineStep (built oneChannel fun _ => false) lastUtterance,
      s.toStop = [] ∧ (s.stage (.stt ['r'])).loop = .done ∧
        (s.stage (.stt ['r'])).box.taken.length = 0 ∧
        (s.stage (.stt ['r'])).box.put.length = 1 := by
    decide +kernel
  obtain ⟨s, reached, stopped, returned, taken, put⟩ := counted
  refine ⟨s, reached, stopped, returned, fun all => ?_⟩
  have same := congrArg List.length all
  rw [taken, put] at same
  cases same

end LastUtterance

section InTime

/-- The router is in its get when its source returns; the packet it gets is the last. -/
def inTime : List (Event (pipeline oneChannel)) :=
  atWorker .router [.test] ++ [.arrive .router (⟨['r'], 0, [1, 0]⟩ : AudioPacket), .sourceReturns,
    .signal] ++ atWorker .router [.get 0] ++ [.deliver .router] ++
    atWorker .router [.handled 0, .resume, .test, .leave]

theorem inTime_handled_all :
    ∃ s, run pipelineStep (built oneChannel fun _ => false) inTime = some s ∧
      HandledAll s .router ∧
      ∃ past later m, inTime = past ++ later ∧
        run pipelineStep (built oneChannel fun _ => false) past = some m ∧
        (m.stage .router).stopping = false ∧ CaughtUp m .router := by
  have reached : run pipelineStep (built oneChannel fun _ => false) inTime = some _ := rfl
  obtain ⟨past, event, later, m, _, whole, running, _, before, _, _, exactly⟩ :=
    @handled_all_iff_caught_up _ oneChannel (fun _ => false) .router inTime _ reached rfl
  exact ⟨_, reached, rfl, past, event :: later, m, whole, running, before, (exactly rfl).mp rfl⟩

end InTime

end EdgeVoice.ShutdownDrain
