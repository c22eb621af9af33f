import EdgeVoice.AudioPath
import EdgeVoice.FrameClock
import EdgeVoice.SegmentLifecycle

/-! The segments on the audio path, partials too, from the VADWorker to the STT workers. Their
audio was in the payloads of their channel. While the VADWorker is not replaced they are part of
what one VADWorker emitted, so they keep the protocol of their ids. -/

namespace EdgeVoice.SegmentPath
open PythonText Models ChannelRouter ByteStream FrameClock VadWorker VadTrack AudioLedger
  SegmentLifecycle StepSystem LossyQueue AudioPath

section Emitted

variable {σ : Type} {cfg : VADWorkerConfig} {it : VADIterator σ} {c : Str}

/-- What a run emits, partial or final, is of the chunks that were open or came. -/
theorem run_audio {ok : ℚ → Prop} {t u : Track} {chunks : List (List UInt8)}
    {effects : List Effect} (run : Run ok c t chunks effects u) :
    ∀ s ∈ puts effects, s.audio.Sublist ((openChunks t).flatten ++ chunks.flatten) := by
  induction run with
  | refl => simp [puts]
  | @tail u v chunks more effects later first move ih =>
    have opened : (openChunks u).flatten.Sublist ((openChunks t).flatten ++ chunks.flatten) := by
      rw [← List.flatten_append, ← Partitions.bytes (AudioLedger.Run.conserves first)]
      exact List.sublist_append_right _ _
    have shorter : ((openChunks t).flatten ++ chunks.flatten).Sublist
        ((openChunks t).flatten ++ (chunks ++ more).flatten) := by
      rw [List.flatten_append, ← List.append_assoc]
      exact List.sublist_append_left _ _
    intro s member
    rw [puts_append, List.mem_append] at member
    rcases member with old | new
    · exact (ih s old).trans shorter
    · refine List.Sublist.trans ?_ (opened.trans shorter)
      cases move with
      | opened => simp [puts] at new
      | extended => simp [puts] at new
      | shown n o segS nonempty =>
        obtain rfl : s = _ := by simpa [puts] using new
        exact List.Sublist.refl _
      | cut n o k chunkS pos inside nonneg =>
        obtain rfl : s = _ := by simpa [puts] using new
        exact (List.take_sublist k o.chunks).flatten
      | closed n o endTs nonempty =>
        obtain rfl : s = _ := by simpa [puts] using new
        exact List.Sublist.refl _

theorem handlePacket_audio (packet : AudioPacket) (now : ℚ) {state : ChannelState σ}
    (h : Coherent anyTime cfg it state) :
    ∀ s ∈ puts (handlePacket cfg it packet now state).2,
      s.audio.Sublist (heldBytes state ++ packet.samples) := by
  obtain ⟨outcome, _⟩ := handlePacket_cases packet now h trivial
  intro s member
  cases outcome with
  | raised _ silent =>
    rw [silent] at member
    cases member
  | outOfSpeech _ _ _ silent =>
    rw [silent] at member
    cases member
  | started _ _ _ run =>
    have made := run_audio run s member
    simpa [heldBytes, List.append_assoc] using made
  | inSpeech _ before run =>
    have made := run_audio run s member
    rw [heldBytes, h.speech before]
    simpa using made

theorem channelStep_audio (c : Str) {state : ChannelState σ} {event : VadEvent}
    (h : Coherent anyTime cfg it state) (own : concerns c event = true) :
    ∀ s ∈ puts (channelStep cfg it c state event).2,
      s.audio.Sublist (heldBytes state ++ eventBytes c event) := by
  have flushed : ∀ s ∈ puts (flushChannel cfg it c state).2,
      s.audio.Sublist (heldBytes state) := by
    intro s member
    have made := run_audio (flushChannel_run c h).1 s member
    rw [List.flatten_nil, List.append_nil] at made
    exact made.trans (List.sublist_append_left _ _)
  cases event with
  | packet packet now =>
    obtain rfl : packet.channelId = c := by simpa [concerns] using own
    rw [eventBytes, if_pos rfl]
    exact handlePacket_audio packet now h
  | idleCheck now =>
    rw [eventBytes, List.append_nil]
    simp only [channelStep]
    split
    · simp [puts]
    split
    · exact flushed
    · simp [puts]
  | flush =>
    rw [eventBytes, List.append_nil]
    exact flushed

theorem workerStep_audio (keys : ChannelKeys) {channels : Channels σ}
    (coherent : ∀ c, Coherent anyTime cfg it (channels c)) (event : VadEvent) (c : Str) :
    ∀ s ∈ puts (effectsOn c (workerStep cfg it keys channels event).2),
      s.audio.Sublist (heldBytes (channels c) ++ eventBytes c event) := by
  by_cases configured : c ∈ keys.val
  · have here := congrArg Prod.snd (workerStep_channel cfg it keys channels event configured)
    by_cases own : concerns c event = true
    · rw [if_pos own] at here
      simp only at here
      rw [here]
      exact channelStep_audio c (coherent c) own
    · rw [if_neg own] at here
      simp only at here
      rw [here]
      simp [puts]
  · rw [workerStep_unconfigured cfg it keys channels event configured]
    simp [puts]

/-- What effects put on a segment queue. -/
theorem segmentsOn_effects (dumping : Bool) (effects : List (Str × Effect)) (c : Str) :
    segmentsOn c (owed .dst (effects.flatMap (effectPuts dumping))) =
      puts (effectsOn c effects) := by
  induction effects with
  | nil => rfl
  | cons tagged effects ih =>
    obtain ⟨d, effect⟩ := tagged
    rw [List.flatMap_cons, owed_append, segmentsOn_append, ih,
      ← @List.singleton_append _ (d, effect) effects, effectsOn_append, puts_append]
    congr 1
    cases effect with
    | minted id =>
      by_cases here : d = c
      · simp [effectPuts, owed, segmentsOn, effectsOn, puts, here]
      · simp [effectPuts, owed, segmentsOn, effectsOn, puts, here]
    | putNowait s =>
      by_cases here : d = c
      · simp [effectPuts, owed, segmentsOn, effectsOn, puts, here]
      · simp [effectPuts, owed, segmentsOn, effectsOn, puts, here]
    | fanoutPut s =>
      have one : owed .dst (effectPuts dumping (d, .fanoutPut s)) = [(d, s)] := by
        have each := (owed_fanoutPut dumping [(d, s)]).1
        rwa [List.flatMap_singleton] at each
      rw [one]
      by_cases here : d = c
      · simp [segmentsOn, effectsOn, puts, here]
      · simp [segmentsOn, effectsOn, puts, here]

end Emitted

section Spoken

variable {σ : Type} {cfg : VADWorkerConfig} {it : VADIterator σ} {r : Repacketizer}
variable {pc : PathConfig} {p p' : Path σ} {e : PathEvent σ}

/-- A channel's segments from the STT worker back to the VADWorker's hands. -/
def spoken (p : Path σ) (c : Str) : List SpeechSegment :=
  p.taken c ++ (p.segments c ++ segmentsOn c (owed .dst p.putting))

theorem spoken_emitted {d : Str} {segment : SpeechSegment}
    {putting : List (Destination × Str × SpeechSegment)}
    (next : p.putting = (.dst, d, segment) :: putting) (c : Str) :
    spoken { p with
      putting, segments := Function.update p.segments d (p.segments d ++ [segment]) } c =
      spoken p c := by
  rw [spoken, spoken, next, owed_cons, if_pos rfl, segmentsOn_append, segmentsOn_cons]
  by_cases here : c = d
  · subst here
    simp
  · simp [Function.update_of_ne here, Ne.symm here]

theorem spoken_copied {d : Str} {segment : SpeechSegment} {segmentDump : List SpeechSegment}
    {putting : List (Destination × Str × SpeechSegment)}
    (next : p.putting = (.dump, d, segment) :: putting) (c : Str) :
    spoken { p with putting, segmentDump } c = spoken p c := by
  rw [spoken, spoken, next, owed_cons, if_neg (by simp), List.nil_append]

theorem spoken_took {d : Str} {segment : SpeechSegment} {queue : List SpeechSegment}
    (next : p.segments d = segment :: queue) (c : Str) :
    spoken { p with
      segments := Function.update p.segments d queue
      taken := Function.update p.taken d (p.taken d ++ [segment]) } c = spoken p c := by
  by_cases here : c = d
  · subst here
    simp [spoken, next]
  · simp [spoken, Function.update_of_ne here]

/-- What a step does with the segments: those of an event of the VADWorker are added, and all
else only loses some. -/
inductive SpokenCase (cfg : VADWorkerConfig) (it : VADIterator σ) (pc : PathConfig) (p : Path σ) :
    PathEvent σ → Path σ → Prop
  | turned {e : PathEvent σ} {p' : Path σ} (event : VadEvent)
      (heard : ∀ packet now, event = .packet packet now → ∃ later, p.routed = packet :: later)
      (channels : p'.channels = (workerStep cfg it pc.keys p.channels event).1)
      (same : p'.received = p.received)
      (more : ∀ c, spoken p' c =
        spoken p c ++ puts (effectsOn c (workerStep cfg it pc.keys p.channels event).2)) :
    SpokenCase cfg it pc p e p'
  | moved {e : PathEvent σ} {p' : Path σ} (channels : p'.channels = p.channels)
      (longer : p.received <+: p'.received) (fewer : ∀ c, (spoken p' c).Sublist (spoken p c)) :
    SpokenCase cfg it pc p e p'
  | replaced (iterators : Str → σ) {p' : Path σ} (same : p'.received = p.received)
      (fewer : ∀ c, (spoken p' c).Sublist (spoken p c)) :
    SpokenCase cfg it pc p (.restartVad iterators) p'

theorem SpokenCase.turn (idle : p.putting = []) (event : VadEvent) (routed heard : List AudioPacket)
    (next : ∀ packet now, event = .packet packet now → ∃ later, p.routed = packet :: later) :
    SpokenCase cfg it pc p e ({ p with routed, heard }.turn cfg it pc event) := by
  refine .turned event next rfl rfl fun c => ?_
  simp only [spoken, Path.turn, segmentsOn_effects, idle, owed_nil, segmentsOn_nil,
    List.append_nil, List.append_assoc]

theorem spoken_step (step : pathStep cfg it r pc p e = some p') : SpokenCase cfg it pc p e p' := by
  cases pathStep_cases step with
  | ignored | arrived =>
    exact .moved rfl (List.prefix_append _ _) fun c => List.Sublist.refl _
  | routed | forwarded | copied | tookDump | tookSegmentDump | restartedRouter =>
    exact .moved rfl List.prefix_rfl fun c => List.Sublist.refl _
  | heard now frame routed idle next =>
    refine .turn idle _ _ _ fun packet now' same => ?_
    cases same
    exact ⟨routed, next⟩
  | checked now idle => exact .turn idle _ p.routed p.heard (by simp)
  | flushed idle => exact .turn idle _ p.routed p.heard (by simp)
  | emitted gaveUp d segment putting next queue put =>
    refine .moved rfl List.prefix_rfl fun c => ?_
    simp only [spoken, next, owed_cons, if_pos, segmentsOn_append, segmentsOn_cons]
    refine List.Sublist.append_left ?_ _
    by_cases here : c = d
    · subst here
      have joined := (offer_sublist put).append_right (segmentsOn c (owed .dst putting))
      simpa using joined
    · simp [Function.update_of_ne here, Ne.symm here]
  | emittedCopy gaveUp d segment putting next segmentDump put =>
    refine .moved rfl List.prefix_rfl fun c => ?_
    rw [spoken_copied next]
  | took d segment queue next =>
    refine .moved rfl List.prefix_rfl fun c => ?_
    rw [spoken_took next]
  | restartedVad iterators =>
    refine .replaced iterators rfl fun c => ?_
    simp [spoken]

/-- Each segment's audio came in the payloads of its channel. -/
structure Voiced (cfg : VADWorkerConfig) (it : VADIterator σ) (r : Repacketizer) (pc : PathConfig)
    (p : Path σ) : Prop where
  sound : Sound cfg it r pc p
  audio : ∀ c, ∀ s ∈ spoken p c, s.audio.Sublist (payloads pc.channels c p.received)

theorem payloads_longer (channels : List MQTTChannels) (c : Str) {past now : List MQTTMessage}
    (longer : past <+: now) : (payloads channels c past).Sublist (payloads channels c now) :=
  (longer.sublist.filter _).flatMap _

theorem Voiced.step (voiced : Voiced cfg it r pc p) (step : pathStep cfg it r pc p e = some p') :
    Voiced cfg it r pc p' := by
  refine ⟨voiced.sound.step step, fun c s member => ?_⟩
  cases spoken_step step with
  | turned event heard channels same more =>
    rw [same]
    rw [more, List.mem_append] at member
    rcases member with old | new
    · exact voiced.audio c s old
    · have came : (eventBytes c event).Sublist (bytesOn c p.routed) := by
        cases event with
        | packet packet now =>
          obtain ⟨later, next⟩ := heard packet now rfl
          rw [next, bytesOn_cons]
          exact List.sublist_append_left _ _
        | idleCheck now => exact List.nil_sublist _
        | flush => exact List.nil_sublist _
      have before := voiced.sound.heard c
      simp only [Heard, Thins, List.flatten_cons, List.flatten_nil] at before
      have inside := workerStep_audio pc.keys voiced.sound.coherent event c s new
      have stages : (heldBytes (p.channels c) ++ bytesOn c p.routed).Sublist
          (heldBytes (p.channels c) ++ (bytesOn c p.routed ++ (bytesOn c (owed .dst p.routing) ++
            ((p.buffers c).buffer ++ (bytesOn c p.ingest ++ []))))) := by
        rw [← List.append_assoc]
        exact List.sublist_append_left _ _
      refine (inside.trans (came.append_left _)).trans (List.Sublist.trans ?_ before)
      exact ((stages.trans (List.sublist_append_right _ _)).trans
        (List.sublist_append_right _ _)).trans (List.sublist_append_right _ _)
  | moved channels longer fewer =>
    exact (voiced.audio c s ((fewer c).subset member)).trans (payloads_longer _ c longer)
  | replaced iterators same fewer =>
    rw [same]
    exact voiced.audio c s ((fewer c).subset member)

end Spoken

section Ordered

variable {σ : Type} {cfg : VADWorkerConfig} {it : VADIterator σ} {r : Repacketizer}
variable {pc : PathConfig} {p p' : Path σ} {e : PathEvent σ}

/-- Messages are stamped by a clock that is not negative, and the VADWorker is not replaced. -/
def Undisturbed : PathEvent σ → Prop
  | .message msg _ => 0 ≤ msg.arrival
  | .restartVad _ => False
  | _ => True

instance : (e : PathEvent σ) → Decidable (Undisturbed e)
  | .message msg _ => inferInstanceAs (Decidable (0 ≤ msg.arrival))
  | .restartVad _ => isFalse id
  | .route | .forward _ | .hear _ | .idleCheck _ | .flush | .emit _ | .take _ | .takeDump
  | .takeSegmentDump | .restartRouter => isTrue trivial

theorem roundHalfEven_nonpos {q : ℚ} (h : q ≤ 0) : roundHalfEven q ≤ 0 := by
  have floor : ⌊q⌋ ≤ 0 := by
    have below := Int.floor_le q
    have cast : (⌊q⌋ : ℚ) ≤ 0 := below.trans h
    exact_mod_cast cast
  unfold roundHalfEven
  by_cases whole : ⌊q⌋ = 0
  · have zero : q = 0 := le_antisymm h (by simpa [whole] using Int.floor_le q)
    simp [zero]
  · split_ifs
    all_goals omega

/-- A frame that is not empty takes its time. -/
theorem ofConfig_lasts {config : RepacketizerConfig}
    (built : Repacketizer.ofConfig config = some r) : 0 ≤ r.outgoingS := by
  obtain ⟨_, outgoing, seconds⟩ := Repacketizer.ofConfig_built built
  rw [seconds]
  by_contra negative
  have short : config.outgoingMs * config.sampleRate / 1000 ≤ 0 := by
    have ms : config.outgoingMs ≤ 0 := by linarith
    have samples := mul_nonpos_of_nonpos_of_nonneg ms (Nat.cast_nonneg (α := ℚ) config.sampleRate)
    linarith
  have rounded := roundHalfEven_nonpos short
  unfold msToBytes at outgoing
  simp only [Option.ite_none_left_eq_some, Option.some.injEq] at outgoing
  have bytes : (0 : ℤ) < r.outgoingBytes := by exact_mod_cast r.outgoingBytes_pos
  have width : (0 : ℤ) ≤ config.bytesPerSample := Int.natCast_nonneg _
  rw [← outgoing.2] at bytes
  exact absurd bytes (not_lt.mpr (mul_nonpos_of_nonpos_of_nonneg rounded width))

theorem feed_nonneg (lasts : 0 ≤ r.outgoingS) {held : ChannelBuffer} {packet : AudioPacket}
    (before : 0 ≤ held.startTs) (stamp : 0 ≤ packet.timestamp) :
    0 ≤ (feed r held packet).1.startTs ∧
      ∀ frame ∈ (feed r held packet).2, 0 ≤ frame.timestamp := by
  by_cases accepted : Accepted r packet
  · obtain ⟨frames, later⟩ := @feed_clock r held packet accepted
    have first : 0 ≤ (takeIn held packet).startTs := by
      simp only [takeIn]
      split
      · exact stamp
      · exact before
    constructor
    · rw [later]
      positivity
    · intro frame member
      obtain ⟨k, at_k⟩ := List.getElem?_of_mem member
      rw [frames k frame at_k]
      positivity
  · simp only [feed, if_neg accepted]
    exact ⟨before, by simp⟩

theorem routePacket_nonneg (lasts : 0 ≤ r.outgoingS) (channelIds : List Str) {buffers : Buffers}
    {packet : AudioPacket} (before : ∀ c, 0 ≤ (buffers c).startTs) (stamp : 0 ≤ packet.timestamp) :
    (∀ c, 0 ≤ ((routePacket r channelIds buffers packet).1 c).startTs) ∧
      ∀ frame ∈ (routePacket r channelIds buffers packet).2, 0 ≤ frame.timestamp := by
  obtain ⟨start, frames⟩ := feed_nonneg lasts (before packet.channelId) stamp
  unfold routePacket
  split
  · change (∀ c, 0 ≤ ((call r buffers packet).1 c).startTs) ∧
      ∀ frame ∈ (call r buffers packet).2, 0 ≤ frame.timestamp
    rw [call_eq]
    refine ⟨fun c => ?_, frames⟩
    simp only [Function.update_apply]
    split
    · exact start
    · exact before c
  · exact ⟨before, by simp⟩

/-- No timestamp on the path is negative. -/
structure Timely (p : Path σ) : Prop where
  ingest : ∀ packet ∈ p.ingest, 0 ≤ packet.timestamp
  buffers : ∀ c, 0 ≤ (p.buffers c).startTs
  routing : ∀ put ∈ p.routing, 0 ≤ put.2.timestamp
  routed : ∀ frame ∈ p.routed, 0 ≤ frame.timestamp

theorem Timely.step (timely : Timely p) (lasts : 0 ≤ r.outgoingS) (calm : Undisturbed e)
    (step : pathStep cfg it r pc p e = some p') : Timely p' := by
  obtain ⟨ingest, buffers, routing, routed⟩ := timely
  cases pathStep_cases step with
  | ignored | checked | flushed | emitted | emittedCopy | took | tookDump | tookSegmentDump =>
    exact ⟨ingest, buffers, routing, routed⟩
  | arrived msg gaveUp packet read queue put =>
    refine ⟨forall_offer put ingest ?_, buffers, routing, routed⟩
    unfold onMessage at read
    split at read
    · cases read
    · cases read
      exact calm
  | routed packet queue idle next =>
    have stamp := ingest packet (next ▸ List.mem_cons_self)
    obtain ⟨starts, frames⟩ := routePacket_nonneg lasts pc.keys.val buffers stamp
    refine ⟨fun other member => ingest other (next ▸ List.mem_cons_of_mem _ member), starts,
      fun put member => ?_, routed⟩
    obtain ⟨frame, made, inside⟩ := List.mem_flatMap.mp member
    exact fanoutPut_item inside ▸ frames frame made
  | forwarded gaveUp frame puts next queue put =>
    exact ⟨ingest, buffers, fun put member => routing put (next ▸ List.mem_cons_of_mem _ member),
      forall_offer put routed (routing _ (next ▸ List.mem_cons_self))⟩
  | copied gaveUp frame puts next queue put =>
    exact ⟨ingest, buffers, fun put member => routing put (next ▸ List.mem_cons_of_mem _ member),
      routed⟩
  | heard now frame queue idle next =>
    exact ⟨ingest, buffers, routing,
      fun other member => routed other (next ▸ List.mem_cons_of_mem _ member)⟩
  | restartedRouter => exact ⟨ingest, by simp, by simp, routed⟩
  | restartedVad => cases calm

theorem Protocol.extend {c : Str} {t u : Track} {chunks : List (List UInt8)}
    {effects later : List Effect} (h : Protocol c effects t)
    (run : Run (0 ≤ ·) c t chunks later u) : Protocol c (effects ++ later) u := by
  induction run with
  | refl => rwa [List.append_nil]
  | tail _ move ih =>
    rw [← List.append_assoc]
    exact ih.move move

/-- On every channel the segments are part of what one VADWorker emitted. -/
structure Orderly (cfg : VADWorkerConfig) (it : VADIterator σ) (p : Path σ) : Prop where
  timely : Timely p
  coherent : ∀ c, Coherent (0 ≤ ·) cfg it (p.channels c)
  emitted : ∀ c, ∃ effects, Protocol c effects (track (p.channels c)) ∧
    (spoken p c).Sublist (puts effects)

theorem Orderly.start (iterators : Str → σ) :
    Orderly cfg it { channels := freshChannels it iterators } := by
  refine ⟨⟨by simp, by simp, by simp, by simp⟩, freshChannels_coherent _ cfg it iterators,
    fun c => ⟨[], Protocol.run (Run.refl _), List.Sublist.refl _⟩⟩

theorem Orderly.step (orderly : Orderly cfg it p) (lasts : 0 ≤ r.outgoingS)
    (calm : Undisturbed e) (step : pathStep cfg it r pc p e = some p') : Orderly cfg it p' := by
  have timely := orderly.timely.step lasts calm step
  cases spoken_step step with
  | turned event heard channels same more =>
    have stamps (packet : AudioPacket) (now : ℚ) (named : event = .packet packet now) :
        0 ≤ packet.timestamp := by
      obtain ⟨later, next⟩ := heard packet now named
      exact orderly.timely.routed packet (next ▸ List.mem_cons_self)
    have ran := workerStep_run pc.keys orderly.coherent stamps
    refine ⟨timely, fun c => channels ▸ (ran c).2, fun c => ?_⟩
    obtain ⟨effects, protocol, part⟩ := orderly.emitted c
    obtain ⟨⟨chunks, moves⟩, _⟩ := ran c
    refine ⟨_, channels ▸ Protocol.extend protocol moves, ?_⟩
    rw [more, puts_append]
    exact part.append_right _
  | moved channels longer fewer =>
    refine ⟨timely, channels ▸ orderly.coherent, fun c => ?_⟩
    obtain ⟨effects, protocol, part⟩ := orderly.emitted c
    exact ⟨effects, channels ▸ protocol, (fewer c).trans part⟩
  | replaced => cases calm

/-- An id names its channel. -/
theorem Orderly.named (orderly : Orderly cfg it p) {c : Str} {s : SpeechSegment}
    (member : s ∈ spoken p c) : ∃ t n, (0 : ℚ) ≤ t ∧ s.segmentId = segmentIdText c t n := by
  obtain ⟨effects, ⟨emitted, _⟩, part⟩ := orderly.emitted c
  obtain ⟨times, all, _, ids⟩ := emitted.ids
  have minted := (emitted.known s (part.subset member)).2
  rw [ids] at minted
  obtain ⟨k, inside, same⟩ := List.mem_mapIdx.mp minted
  exact ⟨times[k], k + 1, all _ (List.getElem_mem _), same.symm⟩

theorem Orderly.same_channel (orderly : Orderly cfg it p) {c d : Str} {s s' : SpeechSegment}
    (first : s ∈ spoken p c) (second : s' ∈ spoken p d) (same : s.segmentId = s'.segmentId) :
    c = d := by
  obtain ⟨t, m, ht, here⟩ := orderly.named first
  obtain ⟨u, n, hu, there⟩ := orderly.named second
  exact segmentIdText_channel ht hu (here.symm.trans (same.trans there))

theorem Orderly.lifecycle (orderly : Orderly cfg it p) (c : Str) : Lifecycle (p.taken c) := by
  obtain ⟨effects, ⟨emitted, _⟩, part⟩ := orderly.emitted c
  exact emitted.lifecycle.sublist ((List.sublist_append_left _ _).trans part)

end Ordered

end EdgeVoice.SegmentPath
