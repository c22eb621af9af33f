import EdgeVoice.AudioLedger
import EdgeVoice.ByteStream
import EdgeVoice.LossyQueue

/-! The audio path as a whole: MqttAudioIngest, ChannelRouter and VADWorker on their threads,
the queues between them and the debug copies, up to the segment queues the STT workers read.
Every put may give up while its queue is full, and the router and the VADWorker may be replaced
at any time; what they held is lost then. A replaced worker is taken to have ended, so its
join did not time out. -/

namespace EdgeVoice.AudioPath
open PythonText Models ChannelRouter ByteStream VadWorker VadTrack AudioLedger StepSystem
  LossyQueue

structure MQTTChannels where
  topic : Str
  channelId : Str
deriving DecidableEq

/-- A message of the broker, and the clock when its callback reads it. -/
structure MQTTMessage where
  topic : Str
  payload : List UInt8
  arrival : ℚ
deriving DecidableEq

/-- `_topic_to_channel`, with the last level of the topic for one that is not in it. -/
def topicToChannel (channels : List MQTTChannels) (topic : Str) : Str :=
  ((channels.reverse.find? fun ch => ch.topic = topic).map MQTTChannels.channelId).getD
    (topic.rtakeWhile (· ≠ '/'))

/-- `_on_message`, up to the put. -/
def onMessage (channels : List MQTTChannels) (msg : MQTTMessage) : Option AudioPacket :=
  if msg.payload = [] then none
  else some ⟨topicToChannel channels msg.topic, msg.arrival, msg.payload⟩

/-- The two queues of `fanout_put`. -/
inductive Destination
  | dst
  | dump
deriving DecidableEq

/-- The puts of `fanout_put`, in order. -/
def fanoutPut {α : Type} (dumping : Bool) (item : α) : List (Destination × α) :=
  (.dst, item) :: if dumping then [(.dump, item)] else []

/-- The puts of an effect of the VADWorker; the channel says which segment queue. -/
def effectPuts (dumping : Bool) : Str × Effect → List (Destination × Str × SpeechSegment)
  | (_, .minted _) => []
  | (c, .putNowait segment) => [(.dst, c, segment)]
  | (c, .fanoutPut segment) => fanoutPut dumping (c, segment)

structure PathConfig where
  channels : List MQTTChannels
  keys : ChannelKeys
  ingestSize : ℕ
  routedSize : ℕ
  segmentSize : ℕ
  dumpSize : ℕ
  dumping : Bool := false
  segmentDumping : Bool := false

/-- `routing` and `putting` are the puts that the router and the VADWorker have still to make
for what they have in hand; `received`, `heard`, `dumped` and `taken` are what the broker sent
and what the VADWorker, the dump worker and the STT workers took. -/
structure Path (σ : Type) where
  channels : Channels σ
  received : List MQTTMessage := []
  ingest : List AudioPacket := []
  buffers : Buffers := fun _ => {}
  routing : List (Destination × AudioPacket) := []
  routed : List AudioPacket := []
  heard : List AudioPacket := []
  dump : List AudioPacket := []
  dumped : List AudioPacket := []
  putting : List (Destination × Str × SpeechSegment) := []
  segments : Str → List SpeechSegment := fun _ => []
  segmentDump : List SpeechSegment := []
  taken : Str → List SpeechSegment := fun _ => []

/-- One turn of one of the threads. `hear` is the VADWorker's next packet; `gaveUp` is a put
that found its queue full until its timeout. A restart is of a thread that has ended: one that
outlives its join, and goes on beside its replacement, is not looked at. -/
inductive PathEvent (σ : Type)
  | message (msg : MQTTMessage) (gaveUp : Bool)
  | route
  | forward (gaveUp : Bool)
  | hear (now : ℚ)
  | idleCheck (now : ℚ)
  | flush
  | emit (gaveUp : Bool)
  | take (c : Str)
  | takeDump
  | takeSegmentDump
  | restartRouter
  | restartVad (iterators : Str → σ)

variable {σ : Type} (cfg : VADWorkerConfig) (it : VADIterator σ) (r : Repacketizer)
variable (pc : PathConfig)

namespace Path

/-- The VADWorker turns to an event, with the puts of the last one made. -/
def turn (event : VadEvent) (p : Path σ) : Path σ :=
  let heard := workerStep cfg it pc.keys p.channels event
  { p with
    channels := heard.1
    putting := heard.2.flatMap (effectPuts pc.segmentDumping) }

end Path

def pathStep (p : Path σ) : PathEvent σ → Option (Path σ)
  | .message msg gaveUp =>
    match onMessage pc.channels msg with
    | none => some { p with received := p.received ++ [msg] }
    | some packet => (offer pc.ingestSize gaveUp packet p.ingest).map fun ingest =>
      { p with ingest, received := p.received ++ [msg] }
  | .route =>
    match p.routing, p.ingest with
    | [], packet :: ingest =>
      let routed := routePacket r pc.keys.val p.buffers packet
      some { p with
        ingest
        buffers := routed.1
        routing := routed.2.flatMap (fanoutPut pc.dumping) }
    | _, _ => none
  | .forward gaveUp =>
    match p.routing with
    | (.dst, frame) :: routing => (offer pc.routedSize gaveUp frame p.routed).map fun routed =>
      { p with routing, routed }
    | (.dump, frame) :: routing => (offer pc.dumpSize gaveUp frame p.dump).map fun dump =>
      { p with routing, dump }
    | [] => none
  | .hear now =>
    match p.putting, p.routed with
    | [], frame :: routed =>
      some ({ p with routed, heard := p.heard ++ [frame] }.turn cfg it pc (.packet frame now))
    | _, _ => none
  | .idleCheck now =>
    if p.putting = [] then some (p.turn cfg it pc (.idleCheck now)) else none
  | .flush => if p.putting = [] then some (p.turn cfg it pc .flush) else none
  | .emit gaveUp =>
    match p.putting with
    | (.dst, c, segment) :: putting =>
      (offer pc.segmentSize gaveUp segment (p.segments c)).map fun queue =>
        { p with putting, segments := Function.update p.segments c queue }
    | (.dump, _, segment) :: putting =>
      (offer pc.dumpSize gaveUp segment p.segmentDump).map fun segmentDump =>
        { p with putting, segmentDump }
    | [] => none
  | .take c =>
    match p.segments c with
    | segment :: queue => some { p with
        segments := Function.update p.segments c queue
        taken := Function.update p.taken c (p.taken c ++ [segment]) }
    | [] => none
  | .takeDump =>
    match p.dump with
    | frame :: dump => some { p with dump, dumped := p.dumped ++ [frame] }
    | [] => none
  | .takeSegmentDump =>
    match p.segmentDump with
    | _ :: segmentDump => some { p with segmentDump }
    | [] => none
  | .restartRouter => some { p with buffers := fun _ => {}, routing := [] }
  | .restartVad iterators => some { p with channels := freshChannels it iterators, putting := [] }

section Bytes

/-- The bytes of a channel's packets. -/
def bytesOn (c : Str) (packets : List AudioPacket) : List UInt8 :=
  (onChannel c packets).flatMap AudioPacket.samples

/-- The packets still to be put on one of the two queues. -/
def owed {α : Type} (d : Destination) (puts : List (Destination × α)) : List α :=
  (puts.filter fun put => put.1 = d).map Prod.snd

/-- What a list of segments says for good. -/
def finalBytes (segments : List SpeechSegment) : List UInt8 :=
  (segments.filter fun s => !s.isPartial).flatMap SpeechSegment.audio

def segmentsOn (c : Str) (puts : List (Str × SpeechSegment)) : List SpeechSegment :=
  (puts.filter fun put => put.1 = c).map Prod.snd

/-- The bytes a channel state holds, in their order. -/
def heldBytes (state : ChannelState σ) : List UInt8 :=
  (openChunks (track state)).flatten ++ (state.preroll.map Prod.snd).flatten

/-- The payloads of the messages that are a channel's. -/
def payloads (channels : List MQTTChannels) (c : Str) (messages : List MQTTMessage) : List UInt8 :=
  (messages.filter fun msg => topicToChannel channels msg.topic = c).flatMap MQTTMessage.payload

end Bytes

section Simp

@[simp] theorem bytesOn_nil (c : Str) : bytesOn c [] = [] := rfl

@[simp] theorem bytesOn_append (c : Str) (packets later : List AudioPacket) :
    bytesOn c (packets ++ later) = bytesOn c packets ++ bytesOn c later := by
  simp [bytesOn]

theorem bytesOn_cons (c : Str) (packet : AudioPacket) (packets : List AudioPacket) :
    bytesOn c (packet :: packets) =
      (if packet.channelId = c then packet.samples else []) ++ bytesOn c packets := by
  by_cases own : packet.channelId = c
  · simp [bytesOn, onChannel, own]
  · simp [bytesOn, onChannel, own]

theorem bytesOn_sublist (c : Str) {packets packets' : List AudioPacket}
    (less : packets.Sublist packets') : (bytesOn c packets).Sublist (bytesOn c packets') :=
  (less.filter _).flatMap _

@[simp] theorem owed_nil {α : Type} (d : Destination) :
    owed d ([] : List (Destination × α)) = [] := rfl

@[simp] theorem segmentsOn_nil (c : Str) : segmentsOn c [] = [] := rfl

theorem owed_cons {α : Type} (d : Destination) (put : Destination × α)
    (puts : List (Destination × α)) :
    owed d (put :: puts) = (if put.1 = d then [put.2] else []) ++ owed d puts := by
  by_cases own : put.1 = d
  · simp [owed, own]
  · simp [owed, own]

@[simp] theorem owed_append {α : Type} (d : Destination) (puts later : List (Destination × α)) :
    owed d (puts ++ later) = owed d puts ++ owed d later := by
  simp [owed]

/-- On each of its queues `fanout_put` puts an item at most once. -/
theorem owed_fanoutPut {α : Type} (dumping : Bool) (items : List α) :
    owed .dst (items.flatMap (fanoutPut dumping)) = items ∧
      (owed .dump (items.flatMap (fanoutPut dumping))).Sublist items := by
  induction items with
  | nil => exact ⟨rfl, List.Sublist.refl _⟩
  | cons item items ih =>
    rw [List.flatMap_cons, owed_append, owed_append, ih.1]
    cases dumping with
    | true => exact ⟨rfl, ih.2.cons_cons item⟩
    | false => exact ⟨rfl, ih.2.cons item⟩

/-- Both puts of `fanout_put` are of its item. -/
theorem fanoutPut_item {α : Type} {dumping : Bool} {item : α} {put : Destination × α}
    (member : put ∈ fanoutPut dumping item) : put.2 = item := by
  rcases List.mem_cons.mp member with rfl | copy
  · rfl
  · split at copy
    · rw [List.mem_singleton.mp copy]
    · cases copy

@[simp] theorem finalBytes_nil : finalBytes [] = [] := rfl

@[simp] theorem finalBytes_append (segments later : List SpeechSegment) :
    finalBytes (segments ++ later) = finalBytes segments ++ finalBytes later := by
  simp [finalBytes]

theorem finalBytes_cons (s : SpeechSegment) (segments : List SpeechSegment) :
    finalBytes (s :: segments) = (if s.isPartial then [] else s.audio) ++ finalBytes segments := by
  cases shown : s.isPartial with
  | true => simp [finalBytes, shown]
  | false => simp [finalBytes, shown]

theorem finalBytes_sublist {segments segments' : List SpeechSegment}
    (less : segments.Sublist segments') :
    (finalBytes segments).Sublist (finalBytes segments') :=
  (less.filter _).flatMap _

@[simp] theorem segmentsOn_append (c : Str) (puts later : List (Str × SpeechSegment)) :
    segmentsOn c (puts ++ later) = segmentsOn c puts ++ segmentsOn c later := by
  simp [segmentsOn]

theorem segmentsOn_cons (c : Str) (put : Str × SpeechSegment)
    (puts : List (Str × SpeechSegment)) :
    segmentsOn c (put :: puts) = (if put.1 = c then [put.2] else []) ++ segmentsOn c puts := by
  by_cases own : put.1 = c
  · simp [segmentsOn, own]
  · simp [segmentsOn, own]

end Simp

section Worker

variable {cfg it}

/-- A segment put for good is a final, one put to be shown is not, and both are of the
channel. -/
def OfChannel (c : Str) : Effect → Prop
  | .minted _ => True
  | .putNowait s => s.channelId = c ∧ s.isPartial = true
  | .fanoutPut s => s.channelId = c ∧ s.isPartial = false

theorem run_ofChannel {ok : ℚ → Prop} {c : Str} {t u : Track} {chunks : List (List UInt8)}
    {effects : List Effect} (h : Run ok c t chunks effects u) :
    ∀ effect ∈ effects, OfChannel c effect := by
  induction h with
  | refl => simp
  | tail first move ih =>
    intro effect member
    rcases List.mem_append.mp member with old | new
    · exact ih effect old
    · cases move with
      | opened =>
        rw [List.mem_singleton.mp new]
        trivial
      | extended => cases new
      | shown =>
        rw [List.mem_singleton.mp new]
        exact ⟨rfl, rfl⟩
      | cut =>
        rcases List.mem_cons.mp new with rfl | last
        · exact ⟨rfl, rfl⟩
        · rw [List.mem_singleton.mp last]
          trivial
      | closed =>
        rw [List.mem_singleton.mp new]
        exact ⟨rfl, rfl⟩

/-- What effects put on a segment queue for good is the channel's finals. -/
theorem finalBytes_effects {effects : List (Str × Effect)}
    (own : ∀ put ∈ effects, OfChannel put.1 put.2) (dumping : Bool) (c : Str) :
    finalBytes (segmentsOn c (owed .dst (effects.flatMap (effectPuts dumping)))) =
      (finals (effectsOn c effects)).flatMap SpeechSegment.audio := by
  induction effects with
  | nil => rfl
  | cons put effects ih =>
    have rest := ih fun e member => own e (List.mem_cons_of_mem _ member)
    have kind := own put List.mem_cons_self
    obtain ⟨d, effect⟩ := put
    rw [List.flatMap_cons, owed_append, segmentsOn_append, finalBytes_append, rest,
      ← @List.singleton_append _ (d, effect) effects, effectsOn_append, finals_append,
      List.flatMap_append]
    congr 1
    cases effect with
    | minted id =>
      by_cases here : d = c
      · simp [effectPuts, owed, segmentsOn, finalBytes, finals, effectsOn, here]
      · simp [effectPuts, owed, segmentsOn, finalBytes, finals, effectsOn, here]
    | putNowait s =>
      by_cases here : d = c
      · simp [effectPuts, owed, segmentsOn, finalBytes, finals, effectsOn, here, kind.2]
      · simp [effectPuts, owed, segmentsOn, finalBytes, finals, effectsOn, here]
    | fanoutPut s =>
      have one : owed .dst (effectPuts dumping (d, .fanoutPut s)) = [(d, s)] := by
        have each := (owed_fanoutPut dumping [(d, s)]).1
        rwa [List.flatMap_singleton] at each
      rw [one]
      by_cases here : d = c
      · simp [segmentsOn, finalBytes, finals, effectsOn, here, kind.2]
      · simp [segmentsOn, finalBytes, finals, effectsOn, here]

/-- Partitions, at the level of bytes. -/
theorem Partitions.bytes {segments : List SpeechSegment} {taken left : List (List UInt8)}
    (h : Partitions segments taken left) :
    segments.flatMap SpeechSegment.audio ++ left.flatten = taken.flatten := by
  obtain ⟨parts, _, audio, whole⟩ := h
  rw [whole, List.flatten_append, List.flatMap_def, audio, List.flatten_flatten]

/-- The bytes of the event that are a channel's. -/
def eventBytes (c : Str) : VadEvent → List UInt8
  | .packet packet _ => if packet.channelId = c then packet.samples else []
  | .idleCheck _ => []
  | .flush => []

theorem flushChannel_keeps (c : Str) {state : ChannelState σ} (h : Coherent anyTime cfg it state) :
    (finals (flushChannel cfg it c state).2).flatMap SpeechSegment.audio ++
      heldBytes (flushChannel cfg it c state).1 = heldBytes state := by
  obtain ⟨run, _, preroll, _⟩ := flushChannel_run c h
  have cut := Partitions.bytes (AudioLedger.Run.conserves run)
  rw [List.append_nil] at cut
  rw [heldBytes, heldBytes, preroll, ← List.append_assoc, cut]

theorem openChunks_closed {state : ChannelState σ} (h : Coherent anyTime cfg it state)
    (quiet : state.triggered = false) : openChunks (track state) = [] := by
  rw [track_closed (h.closed quiet).1]
  rfl

theorem handlePacket_keeps (packet : AudioPacket) (now : ℚ) {state : ChannelState σ}
    (h : Coherent anyTime cfg it state) :
    ((finals (handlePacket cfg it packet now state).2).flatMap SpeechSegment.audio ++
      heldBytes (handlePacket cfg it packet now state).1).Sublist
        (heldBytes state ++ packet.samples) := by
  obtain ⟨outcome, _⟩ := handlePacket_cases packet now h trivial
  cases outcome with
  | raised _ silent same preroll =>
    rw [silent, heldBytes, same, preroll]
    exact List.sublist_append_left _ _
  | outOfSpeech _ before _ silent same preroll =>
    have recent : (pushPreroll cfg packet state).preroll.Sublist _ :=
      pushPreroll_sublist packet state
    have thinned := (recent.map Prod.snd).flatten
    rw [silent, heldBytes, heldBytes, same, preroll, openChunks_closed h before]
    simpa [finals] using thinned
  | started _ before _ run preroll =>
    have cut := Partitions.bytes (AudioLedger.Run.conserves run)
    rw [openChunks_closed h before, List.nil_append] at cut
    rw [heldBytes, heldBytes, preroll, openChunks_closed h before, List.map_nil, List.flatten_nil,
      List.append_nil, cut]
    simp
  | inSpeech _ before run preroll =>
    have cut := Partitions.bytes (AudioLedger.Run.conserves run)
    rw [heldBytes, heldBytes, preroll, h.speech before, List.map_nil, List.flatten_nil,
      List.append_nil, List.append_nil, cut]
    simp

theorem channelStep_keeps (c : Str) {state : ChannelState σ} {event : VadEvent}
    (h : Coherent anyTime cfg it state) (own : concerns c event = true) :
    ((finals (channelStep cfg it c state event).2).flatMap SpeechSegment.audio ++
      heldBytes (channelStep cfg it c state event).1).Sublist
        (heldBytes state ++ eventBytes c event) := by
  cases event with
  | packet packet now =>
    obtain rfl : packet.channelId = c := by simpa [concerns] using own
    rw [eventBytes, if_pos rfl]
    exact handlePacket_keeps packet now h
  | idleCheck now =>
    rw [eventBytes, List.append_nil]
    simp only [channelStep]
    split
    · exact List.Sublist.refl _
    split
    · rw [flushChannel_keeps c h]
    · exact List.Sublist.refl _
  | flush =>
    rw [eventBytes, List.append_nil]
    simp only [channelStep]
    rw [flushChannel_keeps c h]

theorem workerStep_elsewhere (keys : ChannelKeys) (channels : Channels σ) (event : VadEvent)
    {c : Str} (other : c ∉ keys.val) :
    (workerStep cfg it keys channels event).1 c = channels c := by
  cases event with
  | packet packet now =>
    simp only [workerStep]
    split
    · rename_i known
      have apart : c ≠ packet.channelId := by
        rintro rfl
        exact other known
      exact Function.update_of_ne apart _ _
    · rfl
  | idleCheck now => simp [workerStep, forEachChannel, other]
  | flush => simp [workerStep, forEachChannel, other]

/-- What the VADWorker makes of an event, on every channel: a final takes its audio from what
was held, in order, and what came is held behind it or lost. -/
theorem workerStep_keeps (keys : ChannelKeys) {channels : Channels σ}
    (coherent : ∀ c, Coherent anyTime cfg it (channels c)) (event : VadEvent) (c : Str) :
    ((finals (effectsOn c (workerStep cfg it keys channels event).2)).flatMap
        SpeechSegment.audio ++
      heldBytes ((workerStep cfg it keys channels event).1 c)).Sublist
        (heldBytes (channels c) ++ eventBytes c event) := by
  by_cases configured : c ∈ keys.val
  · have here := workerStep_channel cfg it keys channels event configured
    by_cases own : concerns c event = true
    · rw [if_pos own, Prod.ext_iff] at here
      simp only at here
      rw [here.1, here.2]
      exact channelStep_keeps c (coherent c) own
    · rw [if_neg own, Prod.ext_iff] at here
      simp only at here
      rw [here.1, here.2]
      exact List.sublist_append_left _ _
  · rw [workerStep_unconfigured cfg it keys channels event configured,
      workerStep_elsewhere keys channels event configured]
    exact List.sublist_append_left _ _

/-- On every channel, configured or not, an event is a run of moves. -/
theorem workerStep_run {ok : ℚ → Prop} (keys : ChannelKeys) {channels : Channels σ}
    (coherent : ∀ c, Coherent ok cfg it (channels c)) {event : VadEvent}
    (stamps : ∀ packet now, event = .packet packet now → ok packet.timestamp) (c : Str) :
    (∃ chunks, Run ok c (track (channels c)) chunks
      (effectsOn c (workerStep cfg it keys channels event).2)
      (track ((workerStep cfg it keys channels event).1 c))) ∧
      Coherent ok cfg it ((workerStep cfg it keys channels event).1 c) := by
  by_cases configured : c ∈ keys.val
  · have one := worker_run_from keys configured (coherent c) [event] fun packet now member _ =>
      stamps packet now (List.mem_singleton.mp member).symm
    simpa only [outputs_cons, outputs_nil, List.append_nil] using one
  · rw [workerStep_unconfigured cfg it keys channels event configured,
      workerStep_elsewhere keys channels event configured]
    exact ⟨⟨[], Run.refl _⟩, coherent c⟩

theorem workerStep_ofChannel (keys : ChannelKeys) {channels : Channels σ}
    (coherent : ∀ c, Coherent anyTime cfg it (channels c)) (event : VadEvent) :
    ∀ put ∈ (workerStep cfg it keys channels event).2, OfChannel put.1 put.2 := by
  rintro ⟨c, effect⟩ member
  have mine : effect ∈ effectsOn c (workerStep cfg it keys channels event).2 :=
    List.mem_map.mpr ⟨(c, effect), List.mem_filter.mpr ⟨member, by simp⟩, rfl⟩
  obtain ⟨⟨chunks, run⟩, _⟩ := workerStep_run keys coherent (fun _ _ _ => trivial) c
  exact run_ofChannel run effect mine

end Worker

section Runs

variable {cfg it r pc}
variable {p p' : Path σ} {e : PathEvent σ}

/-- All that a step can do. -/
inductive PathCase (cfg : VADWorkerConfig) (it : VADIterator σ) (r : Repacketizer)
    (pc : PathConfig) (p : Path σ) : PathEvent σ → Path σ → Prop
  | ignored (msg : MQTTMessage) (gaveUp : Bool) (empty : onMessage pc.channels msg = none) :
    PathCase cfg it r pc p (.message msg gaveUp) { p with received := p.received ++ [msg] }
  | arrived (msg : MQTTMessage) (gaveUp : Bool) (packet : AudioPacket)
      (read : onMessage pc.channels msg = some packet) (ingest : List AudioPacket)
      (put : offer pc.ingestSize gaveUp packet p.ingest = some ingest) :
    PathCase cfg it r pc p (.message msg gaveUp)
      { p with ingest, received := p.received ++ [msg] }
  | routed (packet : AudioPacket) (ingest : List AudioPacket) (idle : p.routing = [])
      (next : p.ingest = packet :: ingest) :
    PathCase cfg it r pc p .route { p with
      ingest
      buffers := (routePacket r pc.keys.val p.buffers packet).1
      routing := (routePacket r pc.keys.val p.buffers packet).2.flatMap (fanoutPut pc.dumping) }
  | forwarded (gaveUp : Bool) (frame : AudioPacket) (routing : List (Destination × AudioPacket))
      (next : p.routing = (.dst, frame) :: routing) (routed : List AudioPacket)
      (put : offer pc.routedSize gaveUp frame p.routed = some routed) :
    PathCase cfg it r pc p (.forward gaveUp) { p with routing, routed }
  | copied (gaveUp : Bool) (frame : AudioPacket) (routing : List (Destination × AudioPacket))
      (next : p.routing = (.dump, frame) :: routing) (dump : List AudioPacket)
      (put : offer pc.dumpSize gaveUp frame p.dump = some dump) :
    PathCase cfg it r pc p (.forward gaveUp) { p with routing, dump }
  | heard (now : ℚ) (frame : AudioPacket) (routed : List AudioPacket) (idle : p.putting = [])
      (next : p.routed = frame :: routed) :
    PathCase cfg it r pc p (.hear now)
      ({ p with routed, heard := p.heard ++ [frame] }.turn cfg it pc (.packet frame now))
  | checked (now : ℚ) (idle : p.putting = []) :
    PathCase cfg it r pc p (.idleCheck now) (p.turn cfg it pc (.idleCheck now))
  | flushed (idle : p.putting = []) : PathCase cfg it r pc p .flush (p.turn cfg it pc .flush)
  | emitted (gaveUp : Bool) (c : Str) (segment : SpeechSegment)
      (putting : List (Destination × Str × SpeechSegment))
      (next : p.putting = (.dst, c, segment) :: putting) (queue : List SpeechSegment)
      (put : offer pc.segmentSize gaveUp segment (p.segments c) = some queue) :
    PathCase cfg it r pc p (.emit gaveUp)
      { p with putting, segments := Function.update p.segments c queue }
  | emittedCopy (gaveUp : Bool) (c : Str) (segment : SpeechSegment)
      (putting : List (Destination × Str × SpeechSegment))
      (next : p.putting = (.dump, c, segment) :: putting) (segmentDump : List SpeechSegment)
      (put : offer pc.dumpSize gaveUp segment p.segmentDump = some segmentDump) :
    PathCase cfg it r pc p (.emit gaveUp) { p with putting, segmentDump }
  | took (c : Str) (segment : SpeechSegment) (queue : List SpeechSegment)
      (next : p.segments c = segment :: queue) :
    PathCase cfg it r pc p (.take c) { p with
      segments := Function.update p.segments c queue
      taken := Function.update p.taken c (p.taken c ++ [segment]) }
  | tookDump (frame : AudioPacket) (dump : List AudioPacket) (next : p.dump = frame :: dump) :
    PathCase cfg it r pc p .takeDump { p with dump, dumped := p.dumped ++ [frame] }
  | tookSegmentDump (segment : SpeechSegment) (segmentDump : List SpeechSegment)
      (next : p.segmentDump = segment :: segmentDump) :
    PathCase cfg it r pc p .takeSegmentDump { p with segmentDump }
  | restartedRouter :
    PathCase cfg it r pc p .restartRouter { p with buffers := fun _ => {}, routing := [] }
  | restartedVad (iterators : Str → σ) :
    PathCase cfg it r pc p (.restartVad iterators)
      { p with channels := freshChannels it iterators, putting := [] }

theorem pathStep_cases (step : pathStep cfg it r pc p e = some p') :
    PathCase cfg it r pc p e p' := by
  cases e with
  | message msg gaveUp =>
    cases read : onMessage pc.channels msg with
    | none =>
      simp only [pathStep, read, Option.some.injEq] at step
      subst step
      exact .ignored msg gaveUp read
    | some packet =>
      simp only [pathStep, read, Option.map_eq_some_iff] at step
      obtain ⟨ingest, put, rfl⟩ := step
      exact .arrived msg gaveUp packet read ingest put
  | route =>
    cases idle : p.routing with
    | cons put routing => simp [pathStep, idle] at step
    | nil =>
      cases next : p.ingest with
      | nil => simp [pathStep, idle, next] at step
      | cons packet ingest =>
        simp only [pathStep, idle, next, Option.some.injEq] at step
        subst step
        exact .routed packet ingest idle next
  | forward gaveUp =>
    cases next : p.routing with
    | nil => simp [pathStep, next] at step
    | cons put routing =>
      obtain ⟨d, frame⟩ := put
      cases d with
      | dst =>
        simp only [pathStep, next, Option.map_eq_some_iff] at step
        obtain ⟨routed, put, rfl⟩ := step
        exact .forwarded gaveUp frame routing next routed put
      | dump =>
        simp only [pathStep, next, Option.map_eq_some_iff] at step
        obtain ⟨dump, put, rfl⟩ := step
        exact .copied gaveUp frame routing next dump put
  | hear now =>
    cases idle : p.putting with
    | cons put putting => simp [pathStep, idle] at step
    | nil =>
      cases next : p.routed with
      | nil => simp [pathStep, idle, next] at step
      | cons frame routed =>
        simp only [pathStep, idle, next, Option.some.injEq] at step
        subst step
        exact .heard now frame routed idle next
  | idleCheck now =>
    simp only [pathStep, Option.ite_none_right_eq_some, Option.some.injEq] at step
    obtain ⟨idle, rfl⟩ := step
    exact .checked now idle
  | flush =>
    simp only [pathStep, Option.ite_none_right_eq_some, Option.some.injEq] at step
    obtain ⟨idle, rfl⟩ := step
    exact .flushed idle
  | emit gaveUp =>
    cases next : p.putting with
    | nil => simp [pathStep, next] at step
    | cons put putting =>
      obtain ⟨d, c, segment⟩ := put
      cases d with
      | dst =>
        simp only [pathStep, next, Option.map_eq_some_iff] at step
        obtain ⟨queue, put, rfl⟩ := step
        exact .emitted gaveUp c segment putting next queue put
      | dump =>
        simp only [pathStep, next, Option.map_eq_some_iff] at step
        obtain ⟨segmentDump, put, rfl⟩ := step
        exact .emittedCopy gaveUp c segment putting next segmentDump put
  | take c =>
    cases next : p.segments c with
    | nil => simp [pathStep, next] at step
    | cons segment queue =>
      simp only [pathStep, next, Option.some.injEq] at step
      subst step
      exact .took c segment queue next
  | takeDump =>
    cases next : p.dump with
    | nil => simp [pathStep, next] at step
    | cons frame dump =>
      simp only [pathStep, next, Option.some.injEq] at step
      subst step
      exact .tookDump frame dump next
  | takeSegmentDump =>
    cases next : p.segmentDump with
    | nil => simp [pathStep, next] at step
    | cons segment segmentDump =>
      simp only [pathStep, next, Option.some.injEq] at step
      subst step
      exact .tookSegmentDump segment segmentDump next
  | restartRouter =>
    cases step
    exact .restartedRouter
  | restartVad iterators =>
    cases step
    exact .restartedVad iterators

/-- Where a channel's audio is, from the segments an STT worker took back to the ingest queue:
nothing is there that did not come, nothing twice, and nothing overtakes. -/
def Heard (pc : PathConfig) (p : Path σ) (c : Str) : Prop :=
  Thins (finalBytes (p.taken c))
    [finalBytes (p.segments c), finalBytes (segmentsOn c (owed .dst p.putting)),
      heldBytes (p.channels c), bytesOn c p.routed, bytesOn c (owed .dst p.routing),
      (p.buffers c).buffer, bytesOn c p.ingest]
    (payloads pc.channels c p.received)

/-- The same for the debug copies of the frames. -/
def Copied (pc : PathConfig) (p : Path σ) (c : Str) : Prop :=
  Thins (bytesOn c p.dumped)
    [bytesOn c p.dump, bytesOn c (owed .dump p.routing), (p.buffers c).buffer,
      bytesOn c p.ingest]
    (payloads pc.channels c p.received)

/-- A frame for the VADWorker: of a channel it knows, and of the outgoing size. -/
def Framed (r : Repacketizer) (pc : PathConfig) (frame : AudioPacket) : Prop :=
  frame.channelId ∈ pc.keys.val ∧ frame.samples.length = r.outgoingBytes

structure Sound (cfg : VADWorkerConfig) (it : VADIterator σ) (r : Repacketizer) (pc : PathConfig)
    (p : Path σ) : Prop where
  coherent : ∀ c, Coherent anyTime cfg it (p.channels c)
  heard : ∀ c, Heard pc p c
  copied : ∀ c, Copied pc p c
  routing : ∀ put ∈ p.routing, Framed r pc put.2
  routed : ∀ frame ∈ p.routed, Framed r pc frame
  hears : ∀ frame ∈ p.heard, Framed r pc frame
  putting : ∀ put ∈ p.putting, put.2.2.channelId = put.2.1
  segments : ∀ c, ∀ s ∈ p.segments c ++ p.taken c, s.channelId = c

/-- What the router makes of a packet, seen at a channel: the bytes of one it accepts are in
frames or in the buffer. -/
theorem routePacket_bytes (r : Repacketizer) (channelIds : List Str) (buffers : Buffers)
    (packet : AudioPacket) (c : Str) :
    bytesOn c (routePacket r channelIds buffers packet).2 ++
        ((routePacket r channelIds buffers packet).1 c).buffer =
      (buffers c).buffer ++
        if c ∈ channelIds ∧ Accepted r packet then bytesOn c [packet] else [] := by
  by_cases listed : packet.channelId ∈ channelIds
  · have here := call_channel (r := r) c buffers packet
    have conserved := (feed_conserves (r := r) (buffers c) packet).1
    rw [routePacket, if_pos listed]
    change bytesOn c (call r buffers packet).2 ++ ((call r buffers packet).1 c).buffer = _
    rw [Prod.ext_iff] at here
    simp only at here
    rw [bytesOn, here.1, here.2, bytesOn_cons, bytesOn_nil, List.append_nil]
    by_cases own : packet.channelId = c
    · rw [if_pos (by simpa using own), conserved, if_pos own]
      simp [own ▸ listed]
    · rw [if_neg (by simpa using own), if_neg own]
      simp
  · rw [routePacket, if_neg listed]
    by_cases own : packet.channelId = c
    · simp [own ▸ listed]
    · simp [bytesOn_cons, own]

theorem routePacket_keeps (r : Repacketizer) (channelIds : List Str) (buffers : Buffers)
    (packet : AudioPacket) (c : Str) :
    (bytesOn c (routePacket r channelIds buffers packet).2 ++
      ((routePacket r channelIds buffers packet).1 c).buffer).Sublist
        ((buffers c).buffer ++ bytesOn c [packet]) := by
  rw [routePacket_bytes]
  split
  · exact List.Sublist.refl _
  · simp

theorem routePacket_framed (packet : AudioPacket) (buffers : Buffers) :
    ∀ frame ∈ (routePacket r pc.keys.val buffers packet).2, Framed r pc frame := by
  intro frame member
  unfold routePacket at member
  split at member
  · rename_i known
    change frame ∈ (call r buffers packet).2 at member
    rw [call_eq] at member
    obtain ⟨channel, size⟩ := (feed_conserves _ packet).2.2 frame member
    exact ⟨channel ▸ known, size⟩
  · cases member

theorem Sound.start (iterators : Str → σ) :
    Sound cfg it r pc { channels := freshChannels it iterators } := by
  have nothing (c : Str) : heldBytes (freshChannels it iterators c) = [] := rfl
  refine ⟨freshChannels_coherent anyTime cfg it iterators, fun c => ?_, fun c => ?_, by simp,
    by simp, by simp, by simp, by simp⟩
  · rw [Heard, nothing]
    exact List.Sublist.refl _
  · exact List.Sublist.refl _

/-- A turn of the VADWorker. -/
theorem Sound.turn (sound : Sound cfg it r pc p) (idle : p.putting = []) {event : VadEvent}
    {routed heard : List AudioPacket} (less : routed.Sublist p.routed)
    (hears : ∀ frame ∈ heard, Framed r pc frame)
    (next : ∀ c, bytesOn c p.routed = eventBytes c event ++ bytesOn c routed) :
    Sound cfg it r pc ({ p with routed, heard }.turn cfg it pc event) := by
  have own := workerStep_ofChannel pc.keys sound.coherent event
  refine ⟨fun c => (workerStep_run pc.keys sound.coherent (fun _ _ _ => trivial) c).2,
    fun c => ?_, sound.copied, sound.routing,
    fun frame member => sound.routed frame (less.subset member), hears, fun put member => ?_,
    sound.segments⟩
  · have kept := workerStep_keeps pc.keys sound.coherent event c
    rw [← finalBytes_effects own pc.segmentDumping c] at kept
    have before := sound.heard c
    rw [Heard, idle, next c] at before
    refine @Thins.between _ _ _ [_] [_, _, _] [_, _, _] [_, _, _] before ?_
    simpa [List.append_assoc, Path.turn] using kept.append_right (bytesOn c routed)
  · obtain ⟨⟨c, effect⟩, made, inside⟩ := List.mem_flatMap.mp member
    have kind := own _ made
    cases effect with
    | minted id => cases inside
    | putNowait s =>
      rw [effectPuts, List.mem_singleton] at inside
      subst inside
      exact kind.1
    | fanoutPut s =>
      rw [fanoutPut_item inside]
      exact kind.1

theorem payloads_singleton (channels : List MQTTChannels) (c : Str) (msg : MQTTMessage) :
    payloads channels c [msg] =
      if topicToChannel channels msg.topic = c then msg.payload else [] := by
  by_cases own : topicToChannel channels msg.topic = c
  · simp [payloads, own]
  · simp [payloads, own]

theorem bytesOn_onMessage {channels : List MQTTChannels} {msg : MQTTMessage}
    {packet : AudioPacket} (read : onMessage channels msg = some packet) (c : Str) :
    bytesOn c [packet] = payloads channels c [msg] := by
  unfold onMessage at read
  split at read
  · cases read
  · cases read
    rw [bytesOn_cons, bytesOn_nil, List.append_nil, payloads_singleton]

theorem payloads_concat (channels : List MQTTChannels) (c : Str) (messages : List MQTTMessage)
    (msg : MQTTMessage) :
    payloads channels c (messages ++ [msg]) =
      payloads channels c messages ++ payloads channels c [msg] := by
  simp [payloads]

theorem Sound.step (sound : Sound cfg it r pc p) (step : pathStep cfg it r pc p e = some p') :
    Sound cfg it r pc p' := by
  cases pathStep_cases step with
  | ignored msg gaveUp empty =>
    refine ⟨sound.coherent, fun c => ?_, fun c => ?_, sound.routing, sound.routed, sound.hears,
      sound.putting, sound.segments⟩
    · rw [Heard, payloads_concat]
      exact (sound.heard c).trans (List.sublist_append_left _ _)
    · rw [Copied, payloads_concat]
      exact (sound.copied c).trans (List.sublist_append_left _ _)
  | arrived msg gaveUp packet read ingest put =>
    have longer (c : Str) : (bytesOn c ingest).Sublist
        (bytesOn c p.ingest ++ payloads pc.channels c [msg]) := by
      rw [← bytesOn_onMessage read, ← bytesOn_append]
      exact bytesOn_sublist c (offer_sublist put)
    refine ⟨sound.coherent, fun c => ?_, fun c => ?_, sound.routing, sound.routed, sound.hears,
      sound.putting, sound.segments⟩
    · rw [Heard, payloads_concat]
      exact @Thins.enter _ _ _ [_, _, _, _, _, _] _ _ _ (sound.heard c) (longer c)
    · rw [Copied, payloads_concat]
      exact @Thins.enter _ _ _ [_, _, _] _ _ _ (sound.copied c) (longer c)
  | routed packet ingest idle next =>
    have moved (c : Str) := routePacket_keeps r pc.keys.val p.buffers packet c
    obtain ⟨all, some'⟩ := owed_fanoutPut pc.dumping (routePacket r pc.keys.val p.buffers packet).2
    have split (c : Str) : bytesOn c p.ingest = bytesOn c [packet] ++ bytesOn c ingest := by
      rw [next, ← bytesOn_append, List.singleton_append]
    refine ⟨sound.coherent, fun c => ?_, fun c => ?_, fun put member => ?_, sound.routed,
      sound.hears, sound.putting, sound.segments⟩
    · have before := sound.heard c
      rw [Heard, idle, split c] at before
      refine @Thins.between _ _ _ [_, _, _, _] [] [_, _, _] [_, _, _] before ?_
      simpa [List.append_assoc, all] using (moved c).append_right (bytesOn c ingest)
    · have before := sound.copied c
      rw [Copied, idle, split c] at before
      refine @Thins.between _ _ _ [_] [] [_, _, _] [_, _, _] before ?_
      have fewer := ((bytesOn_sublist c some').append_right _).trans (moved c)
      simpa [List.append_assoc] using fewer.append_right (bytesOn c ingest)
    · obtain ⟨frame, made, inside⟩ := List.mem_flatMap.mp member
      rw [fanoutPut_item inside]
      exact routePacket_framed packet p.buffers frame made
  | forwarded gaveUp frame routing next routed put =>
    have framed := sound.routing _ (next ▸ List.mem_cons_self)
    refine ⟨sound.coherent, fun c => ?_, fun c => ?_, fun put member => ?_,
      forall_offer put sound.routed framed, sound.hears, sound.putting, sound.segments⟩
    · have before := sound.heard c
      rw [Heard, next, owed_cons, if_pos rfl] at before
      refine @Thins.between _ _ _ [_, _, _] [_, _] [_, _] [_, _] before ?_
      have moved := (bytesOn_sublist c (offer_sublist put)).append_right
        (bytesOn c (owed .dst routing))
      simpa [List.append_assoc, bytesOn_cons] using moved
    · have before := sound.copied c
      rw [Copied, next, owed_cons, if_neg (by simp), List.nil_append] at before
      exact before
    · exact sound.routing put (next ▸ List.mem_cons_of_mem _ member)
  | copied gaveUp frame routing next dump put =>
    refine ⟨sound.coherent, fun c => ?_, fun c => ?_, fun put member => ?_, sound.routed,
      sound.hears, sound.putting, sound.segments⟩
    · have before := sound.heard c
      rw [Heard, next, owed_cons, if_neg (by simp), List.nil_append] at before
      exact before
    · have before := sound.copied c
      rw [Copied, next, owed_cons, if_pos rfl] at before
      refine @Thins.between _ _ _ [] [_, _] [_, _] [_, _] before ?_
      have moved := (bytesOn_sublist c (offer_sublist put)).append_right
        (bytesOn c (owed .dump routing))
      simpa [List.append_assoc, bytesOn_cons] using moved
    · exact sound.routing put (next ▸ List.mem_cons_of_mem _ member)
  | heard now frame routed idle next =>
    refine sound.turn idle (next ▸ List.sublist_cons_self frame routed) (fun other member => ?_)
      fun c => ?_
    · rcases List.mem_append.mp member with old | new
      · exact sound.hears other old
      · rw [List.mem_singleton.mp new]
        exact sound.routed frame (next ▸ List.mem_cons_self)
    · rw [next, bytesOn_cons]
      rfl
  | checked now idle => exact sound.turn idle (List.Sublist.refl _) sound.hears fun c => rfl
  | flushed idle => exact sound.turn idle (List.Sublist.refl _) sound.hears fun c => rfl
  | emitted gaveUp c segment putting next queue put =>
    have own := sound.putting _ (next ▸ List.mem_cons_self)
    refine ⟨sound.coherent, fun d => ?_, sound.copied, sound.routing, sound.routed, sound.hears,
      fun put member => sound.putting put (next ▸ List.mem_cons_of_mem _ member), fun d => ?_⟩
    · have before := sound.heard d
      rw [Heard, next, owed_cons, if_pos rfl, segmentsOn_append, segmentsOn_cons] at before
      refine @Thins.between _ _ _ [] [_, _, _, _, _] [_, _] [_, _] before ?_
      by_cases here : c = d
      · subst here
        have moved := (finalBytes_sublist (offer_sublist put)).append_right
          (finalBytes (segmentsOn c (owed .dst putting)))
        simpa [List.append_assoc, finalBytes_cons] using moved
      · simp [Function.update_of_ne (Ne.symm here), here]
    · by_cases here : d = c
      · subst here
        simp only [Function.update_self]
        intro s member
        rcases List.mem_append.mp member with queued | old
        · exact forall_offer put (fun s inside => sound.segments d s
            (List.mem_append_left _ inside)) own s queued
        · exact sound.segments d s (List.mem_append_right _ old)
      · simpa only [Function.update_of_ne here] using sound.segments d
  | emittedCopy gaveUp c segment putting next segmentDump put =>
    refine ⟨sound.coherent, fun d => ?_, sound.copied, sound.routing, sound.routed, sound.hears,
      fun put member => sound.putting put (next ▸ List.mem_cons_of_mem _ member), sound.segments⟩
    have before := sound.heard d
    rw [Heard, next, owed_cons, if_neg (by simp), List.nil_append] at before
    exact before
  | took c segment queue next =>
    refine ⟨sound.coherent, fun d => ?_, sound.copied, sound.routing, sound.routed, sound.hears,
      sound.putting, fun d => ?_⟩
    · by_cases here : d = c
      · subst here
        have before := sound.heard d
        rw [Heard, next] at before
        refine before.leave ?_
        simp only [Function.update_self]
        rw [finalBytes_append, List.append_assoc, ← finalBytes_append, List.singleton_append]
      · have before := sound.heard d
        rw [Heard] at before ⊢
        simpa only [Function.update_of_ne here] using before
    · by_cases here : d = c
      · subst here
        intro s member
        refine sound.segments d s ?_
        simp only [Function.update_self, List.mem_append, List.mem_singleton] at member
        rw [next]
        simp only [List.mem_append, List.mem_cons]
        tauto
      · simpa only [Function.update_of_ne here] using sound.segments d
  | tookDump frame dump next =>
    refine ⟨sound.coherent, sound.heard, fun c => ?_, sound.routing, sound.routed, sound.hears,
      sound.putting, sound.segments⟩
    have before := sound.copied c
    rw [Copied, next] at before
    refine before.leave ?_
    rw [bytesOn_append, List.append_assoc, ← bytesOn_append, List.singleton_append]
  | tookSegmentDump segment segmentDump next =>
    exact ⟨sound.coherent, sound.heard, sound.copied, sound.routing, sound.routed, sound.hears,
      sound.putting, sound.segments⟩
  | restartedRouter =>
    refine ⟨sound.coherent, fun c => ?_, fun c => ?_, by simp, sound.routed, sound.hears,
      sound.putting, sound.segments⟩
    · refine @Thins.between _ _ _ [_, _, _, _] [_] [_, _] [_, _] (sound.heard c) ?_
      exact List.nil_sublist _
    · refine @Thins.between _ _ _ [_] [_] [_, _] [_, _] (sound.copied c) ?_
      exact List.nil_sublist _
  | restartedVad iterators =>
    refine ⟨freshChannels_coherent anyTime cfg it iterators, fun c => ?_, sound.copied,
      sound.routing, sound.routed, sound.hears, by simp, sound.segments⟩
    refine @Thins.between _ _ _ [_] [_, _, _, _] [_, _] [_, _] (sound.heard c) ?_
    exact List.nil_sublist _

theorem run_sound {iterators : Str → σ} {events : List (PathEvent σ)}
    (reached : run (pathStep cfg it r pc) { channels := freshChannels it iterators } events =
      some p) : Sound cfg it r pc p :=
  run_invariant (pathStep cfg it r pc) (Sound.start iterators)
    (fun _ _ _ sound step => sound.step step) reached

/-- One channel of mono samples, a frame a sample, and queues of one item. -/
def onePlace : PathConfig where
  channels := [⟨['a', '/', 'r'], ['r']⟩]
  keys := channelR
  ingestSize := 1
  routedSize := 1
  segmentSize := 1
  dumpSize := 1
  dumping := true

/-- A sample of speech and one of silence, each all the way to the segment queue. -/
def wordHeard : List (PathEvent Bool) :=
  [.message ⟨['a', '/', 'r'], [1, 0], 0⟩ false, .message ⟨['a', '/', 'r'], [2, 0], 0⟩ true,
    .route, .forward false, .forward false, .hear 0,
    .message ⟨['b', '/', 'r'], [0, 0], 1⟩ false, .route, .forward false, .forward true, .hear 1,
    .takeDump, .emit false, .take ['r']]

/-- Whatever is dropped where, and whatever is restarted when, in any interleaving: the finals
an STT worker took are of its channel, and their audio, one after another, is what is left of
the payloads of that channel's messages when some bytes are struck out. The same holds of the
debug copies. -/
theorem no_audio_invented {iterators : Str → σ} {events : List (PathEvent σ)}
    (reached : run (pathStep cfg it r pc) { channels := freshChannels it iterators } events =
      some p) (c : Str) :
    (∀ s ∈ p.taken c, s.channelId = c) ∧
      (finalBytes (p.taken c)).Sublist (payloads pc.channels c p.received) ∧
      (bytesOn c p.dumped).Sublist (payloads pc.channels c p.received) := by
  have sound := run_sound reached
  refine ⟨fun s member => sound.segments c s (List.mem_append_right _ member), ?_, ?_⟩
  · exact (List.sublist_append_left _ _).trans (sound.heard c)
  · exact (List.sublist_append_left _ _).trans (sound.copied c)

theorem wordHeard_not_invented :
    ∃ p, run (pathStep ungated levelIterator ⟨2, 2, 1, Nat.two_pos⟩ onePlace)
        { channels := freshChannels levelIterator fun _ => false } wordHeard = some p ∧
      (p.taken ['r']).map SpeechSegment.audio = [[1, 0, 0, 0]] ∧
      (finalBytes (p.taken ['r'])).Sublist (payloads onePlace.channels ['r'] p.received) := by
  have ends : ((run (pathStep ungated levelIterator ⟨2, 2, 1, Nat.two_pos⟩ onePlace)
      { channels := freshChannels levelIterator fun _ => false } wordHeard).map fun p =>
        (p.taken ['r']).map SpeechSegment.audio) = some [[1, 0, 0, 0]] := by
    decide +kernel
  obtain ⟨p, reached, audio⟩ := Option.map_eq_some_iff.mp ends
  exact ⟨p, reached, audio, (no_audio_invented reached ['r']).2.1⟩

/-- The VADWorker never gets a packet of a channel it has no state for, nor a chunk of another
size than the outgoing one, from whatever topics and payloads the broker sends. -/
theorem hears_known_frames {iterators : Str → σ} {events : List (PathEvent σ)}
    (reached : run (pathStep cfg it r pc) { channels := freshChannels it iterators } events =
      some p) :
    ∀ frame ∈ p.heard ++ p.routed,
      frame.channelId ∈ pc.keys.val ∧ frame.samples.length = r.outgoingBytes := by
  have sound := run_sound reached
  intro frame member
  rcases List.mem_append.mp member with heard | waits
  · exact sound.hears frame heard
  · exact sound.routed frame waits

theorem wordHeard_known :
    ∃ p, run (pathStep ungated levelIterator ⟨2, 2, 1, Nat.two_pos⟩ onePlace)
        { channels := freshChannels levelIterator fun _ => false } wordHeard = some p ∧
      p.heard.length = 2 ∧ (p.heard.map fun frame => frame.channelId) ⊆ channelR.val := by
  have ends : ((run (pathStep ungated levelIterator ⟨2, 2, 1, Nat.two_pos⟩ onePlace)
      { channels := freshChannels levelIterator fun _ => false } wordHeard).map fun p =>
        p.heard.length) = some 2 := by
    decide +kernel
  obtain ⟨p, reached, two⟩ := Option.map_eq_some_iff.mp ends
  refine ⟨p, reached, two, fun c member => ?_⟩
  obtain ⟨frame, heard, rfl⟩ := List.mem_map.mp member
  exact (hears_known_frames reached frame (List.mem_append_left _ heard)).1

end Runs

section Lossless

variable {cfg it r pc}
variable {p p' : Path σ} {e : PathEvent σ} {c : Str}

/-- No put of the router's or of the ingest's gives up, the router is not replaced, and the
messages of the channel are of the incoming size, or empty. -/
def Gentle (r : Repacketizer) (pc : PathConfig) (c : Str) (p : Path σ) : PathEvent σ → Prop
  | .message msg gaveUp => gaveUp = false ∧ (topicToChannel pc.channels msg.topic = c →
      msg.payload = [] ∨ (msg.payload.length : ℤ) = r.incomingBytes)
  | .forward gaveUp => ∀ put ∈ p.routing.head?, put.1 = .dst → gaveUp = false
  | .restartRouter => False
  | _ => True

instance (r : Repacketizer) (pc : PathConfig) (c : Str) (p : Path σ) :
    (e : PathEvent σ) → Decidable (Gentle r pc c p e)
  | .message msg gaveUp =>
    inferInstanceAs (Decidable (gaveUp = false ∧ (topicToChannel pc.channels msg.topic = c →
      msg.payload = [] ∨ (msg.payload.length : ℤ) = r.incomingBytes)))
  | .forward gaveUp =>
    inferInstanceAs (Decidable (∀ put ∈ p.routing.head?, put.1 = .dst → gaveUp = false))
  | .restartRouter => isFalse id
  | .route | .hear _ | .idleCheck _ | .flush | .emit _ | .take _ | .takeDump | .takeSegmentDump
  | .restartVad _ => isTrue trivial

/-- The VADWorker has heard the channel's bytes, up to what is on its way. -/
structure Whole (r : Repacketizer) (pc : PathConfig) (c : Str) (p : Path σ) : Prop where
  bytes : bytesOn c p.heard ++ (bytesOn c p.routed ++ (bytesOn c (owed .dst p.routing) ++
    ((p.buffers c).buffer ++ bytesOn c p.ingest))) = payloads pc.channels c p.received
  accepted : ∀ packet ∈ p.ingest, packet.channelId = c → Accepted r packet

theorem Whole.step (whole : Whole r pc c p) (known : c ∈ pc.keys.val) (gentle : Gentle r pc c p e)
    (step : pathStep cfg it r pc p e = some p') : Whole r pc c p' := by
  obtain ⟨bytes, accepted⟩ := whole
  cases pathStep_cases step with
  | ignored msg gaveUp empty =>
    have silent : msg.payload = [] := by
      unfold onMessage at empty
      split at empty
      · assumption
      · cases empty
    refine ⟨?_, accepted⟩
    rw [payloads_concat, bytes, payloads_singleton, silent, ite_self, List.append_nil]
  | arrived msg gaveUp packet read ingest put =>
    obtain ⟨rfl, size⟩ := gentle
    rcases offer_cases put with ⟨rfl, _⟩ | ⟨_, full⟩
    · refine ⟨?_, fun other member own => ?_⟩
      · rw [payloads_concat, ← bytesOn_onMessage read, bytesOn_append, ← bytes]
        simp only [List.append_assoc]
      · rcases List.mem_append.mp member with old | new
        · exact accepted other old own
        · rw [List.mem_singleton.mp new] at own ⊢
          unfold onMessage at read
          split at read
          · cases read
          · rename_i loud
            cases read
            exact (size own).resolve_left loud
    · simp [offer, full] at put
  | routed packet ingest idle next =>
    rw [idle, next, owed_nil, bytesOn_nil, List.nil_append, ← List.singleton_append,
      bytesOn_append] at bytes
    have moved := routePacket_bytes r pc.keys.val p.buffers packet c
    have taken : (if c ∈ pc.keys.val ∧ Accepted r packet then bytesOn c [packet] else []) =
        bytesOn c [packet] := by
      by_cases own : packet.channelId = c
      · rw [if_pos ⟨known, accepted packet (next ▸ List.mem_cons_self) own⟩]
      · simp [bytesOn_cons, own]
    rw [taken] at moved
    refine ⟨?_, fun other member => accepted other (next ▸ List.mem_cons_of_mem _ member)⟩
    simp only [(owed_fanoutPut pc.dumping _).1]
    rw [← bytes, ← List.append_assoc (bytesOn c _) (ChannelBuffer.buffer _), moved]
    simp only [List.append_assoc]
  | forwarded gaveUp frame routing next routed put =>
    obtain rfl := gentle (.dst, frame) (by simp [next]) rfl
    rcases offer_cases put with ⟨rfl, _⟩ | ⟨_, full⟩
    · rw [next, owed_cons, if_pos rfl, bytesOn_append] at bytes
      refine ⟨?_, accepted⟩
      rw [bytesOn_append, ← bytes]
      simp only [List.append_assoc]
    · simp [offer, full] at put
  | copied gaveUp frame routing next dump put =>
    rw [next, owed_cons, if_neg (by simp), List.nil_append] at bytes
    exact ⟨bytes, accepted⟩
  | heard now frame routed idle next =>
    rw [next, ← List.singleton_append, bytesOn_append] at bytes
    refine ⟨?_, accepted⟩
    simp only [Path.turn]
    rw [bytesOn_append, ← bytes]
    simp only [List.append_assoc]
  | checked | flushed | emitted | emittedCopy | took | tookDump | tookSegmentDump
  | restartedVad => exact ⟨bytes, accepted⟩
  | restartedRouter => cases gentle

/-- Nothing else loses audio on its way to the VADWorker: where no put of the ingest's or the
router's gave up and the router was not replaced, the VADWorker has heard the payloads of a
channel's messages in full and in order, but for what is still in a queue or in the buffer. -/
theorem heard_in_full {iterators : Str → σ} {events : List (PathEvent σ)}
    (known : c ∈ pc.keys.val)
    (gentle : Along (pathStep cfg it r pc) (Gentle r pc c)
      { channels := freshChannels it iterators } events)
    (reached : run (pathStep cfg it r pc) { channels := freshChannels it iterators } events =
      some p) :
    bytesOn c p.heard ++ (bytesOn c p.routed ++ (bytesOn c (owed .dst p.routing) ++
      ((p.buffers c).buffer ++ bytesOn c p.ingest))) = payloads pc.channels c p.received :=
  (run_invariant_along (pathStep cfg it r pc) (I := Whole r pc c) ⟨rfl, by simp⟩
    (fun _ _ _ whole gentle step => whole.step known gentle step) gentle reached).bytes

theorem wordHeard_in_full :
    ∃ p, run (pathStep ungated levelIterator ⟨2, 2, 1, Nat.two_pos⟩ onePlace)
        { channels := freshChannels levelIterator fun _ => false } (wordHeard.eraseIdx 1) =
          some p ∧
      p.heard.length = 2 ∧
      bytesOn ['r'] p.heard ++ (bytesOn ['r'] p.routed ++ (bytesOn ['r'] (owed .dst p.routing) ++
        ((p.buffers ['r']).buffer ++ bytesOn ['r'] p.ingest))) =
          payloads onePlace.channels ['r'] p.received := by
  have ends : ((run (pathStep ungated levelIterator ⟨2, 2, 1, Nat.two_pos⟩ onePlace)
      { channels := freshChannels levelIterator fun _ => false } (wordHeard.eraseIdx 1)).map
        fun p => p.heard.length) = some 2 := by
    decide +kernel
  obtain ⟨p, reached, two⟩ := Option.map_eq_some_iff.mp ends
  exact ⟨p, reached, two, heard_in_full (by decide) (by decide +kernel) reached⟩

end Lossless

end EdgeVoice.AudioPath
