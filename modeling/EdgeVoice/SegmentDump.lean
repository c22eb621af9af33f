import EdgeVoice.AudioDump
import EdgeVoice.PendingLoss
import EdgeVoice.SegmentPath

/-! SegmentAudioDumpWorker at the end of the audio path: one WAV file for each final that comes
to its queue, so that what the VADWorker passes on can be heard. As in AudioDump a file is known
by the name the worker builds for it, and every write is taken to succeed. -/

namespace EdgeVoice.SegmentDump
open PythonText Models VadWorker VadTrack AudioLedger SegmentLifecycle StepSystem LossyQueue
  AudioPath SegmentPath

/-- `f"{channel_id}_{idx:03d}_{start:.2f}-{end:.2f}s.wav"`. -/
def segmentFile (idx : ℕ) (seg : SpeechSegment) : Str :=
  seg.channelId ++ '_' :: (AudioDump.pad3 idx ++ '_' :: (PendingLoss.fixed2 seg.start ++
    '-' :: (PendingLoss.fixed2 seg.endTs ++ ['s', '.', 'w', 'a', 'v'])))

/-- `raised` is `np.frombuffer` on a segment that is not whole samples; it ends the thread. -/
structure SegmentAudioDumpWorker where
  counter : ℕ := 0
  written : List AudioDump.Write := []
  raised : Bool := false

/-- One pass of run()'s loop. -/
def SegmentAudioDumpWorker.handle (w : SegmentAudioDumpWorker) (seg : SpeechSegment) :
    SegmentAudioDumpWorker :=
  match int16Samples seg.audio with
  | none => { w with raised := true }
  | some pcm =>
    { w with
      counter := w.counter + 1
      written := w.written ++ [(segmentFile (w.counter + 1) seg, pcm)] }

/-- `handled` is what the worker took. -/
structure Dumping (σ : Type) where
  path : Path σ
  worker : SegmentAudioDumpWorker := {}
  handled : List SpeechSegment := []

variable {σ : Type} (cfg : VADWorkerConfig) (it : VADIterator σ) (r : ChannelRouter.Repacketizer)
variable (pc : PathConfig)

def dumpingStep (s : Dumping σ) : PathEvent σ → Option (Dumping σ)
  | .takeSegmentDump =>
    if s.worker.raised then none
    else
      match s.path.segmentDump with
      | [] => none
      | seg :: _ => (pathStep cfg it r pc s.path .takeSegmentDump).map fun path =>
        { path, worker := s.worker.handle seg, handled := s.handled ++ [seg] }
  | e => (pathStep cfg it r pc s.path e).map fun path => { s with path }

section Names

theorem underscore_notMem_decimal (n : ℕ) : '_' ∉ decimal n := by
  intro member
  have digit := Nat.isDigit_of_mem_toDigits (by norm_num) (by norm_num) member
  exact absurd digit (by decide)

theorem digitChar_ne_underscore (n : ℕ) : Nat.digitChar (n % 10) ≠ '_' := by
  have small : n % 10 < 10 := Nat.mod_lt _ (by norm_num)
  interval_cases n % 10
  all_goals decide

theorem underscore_notMem_fixed2 (x : ℚ) : '_' ∉ PendingLoss.fixed2 x := by
  unfold PendingLoss.fixed2
  split
  all_goals
    simp [underscore_notMem_decimal, (digitChar_ne_underscore _).symm]

/-- The number stands between the last two underscores. -/
theorem segmentFile_idx {m n : ℕ} {s s' : SpeechSegment}
    (same : segmentFile m s = segmentFile n s') : m = n := by
  have clear (s : SpeechSegment) : '_' ∉ PendingLoss.fixed2 s.start ++
      '-' :: (PendingLoss.fixed2 s.endTs ++ ['s', '.', 'w', 'a', 'v']) := by
    simp [underscore_notMem_fixed2]
  have split (k : ℕ) (s : SpeechSegment) : segmentFile k s =
      (s.channelId ++ '_' :: AudioDump.pad3 k) ++ '_' :: (PendingLoss.fixed2 s.start ++
        '-' :: (PendingLoss.fixed2 s.endTs ++ ['s', '.', 'w', 'a', 'v'])) := by
    simp [segmentFile]
  rw [split m s, split n s'] at same
  have front := (append_sep_inj (clear s) (clear s') same).1
  exact AudioDump.pad3_injective (append_sep_inj (AudioDump.underscore_notMem_pad3 m)
    (AudioDump.underscore_notMem_pad3 n) front).2

/-- The files of the segments, in their order, with the bytes of their samples. -/
def filesOf (segments : List SpeechSegment) : List (Str × List UInt8) :=
  segments.mapIdx fun k seg => (segmentFile (k + 1) seg, seg.audio)

theorem filesOf_concat (segments : List SpeechSegment) (seg : SpeechSegment) :
    filesOf (segments ++ [seg]) =
      filesOf segments ++ [(segmentFile (segments.length + 1) seg, seg.audio)] := by
  simp [filesOf, List.mapIdx_append]

theorem filesOf_nodup (segments : List SpeechSegment) :
    ((filesOf segments).map Prod.fst).Nodup := by
  rw [List.nodup_iff_injective_getElem]
  intro i j same
  simp only [filesOf, List.getElem_map, List.getElem_mapIdx] at same
  have number := segmentFile_idx same
  ext
  omega

end Names

section Whole

variable {cfg it}

/-- What a run emits is of whole samples when what was open or came is. -/
theorem run_even {ok : ℚ → Prop} {c : Str} {t u : Track} {chunks : List (List UInt8)}
    {effects : List Effect} (run : Run ok c t chunks effects u)
    (even : ∀ chunk ∈ openChunks t ++ chunks, Even chunk.length) :
    (∀ chunk ∈ openChunks u, Even chunk.length) ∧
      ∀ s ∈ puts effects, Even s.audio.length := by
  induction run with
  | refl => exact ⟨fun chunk member => even chunk (List.mem_append_left _ member), by simp [puts]⟩
  | @tail u v chunks more effects later first move ih =>
    have before := ih fun chunk member => even chunk (by
      rw [← List.append_assoc]
      exact List.mem_append_left _ member)
    have added : ∀ chunk ∈ more, Even chunk.length := fun chunk member =>
      even chunk (by simp [member])
    obtain ⟨opened, emitted⟩ := before
    have now : (∀ chunk ∈ openChunks v, Even chunk.length) ∧
        ∀ s ∈ puts later, Even s.audio.length := by
      cases move with
      | opened n startTs chunks valid => exact ⟨added, by simp [puts]⟩
      | extended n s chunk =>
        refine ⟨fun other member => ?_, by simp [puts]⟩
        rcases List.mem_append.mp member with old | new
        · exact opened other old
        · exact added other new
      | shown n s segS nonempty =>
        refine ⟨opened, fun seg member => ?_⟩
        obtain rfl : seg = _ := by simpa [puts] using member
        exact PendingLoss.even_flatten opened
      | cut n s k chunkS pos inside nonneg =>
        refine ⟨fun chunk member => opened chunk (List.mem_of_mem_drop member),
          fun seg member => ?_⟩
        obtain rfl : seg = _ := by simpa [puts] using member
        exact PendingLoss.even_flatten fun chunk member =>
          opened chunk (List.mem_of_mem_take member)
      | closed n s endTs nonempty =>
        refine ⟨by simp [openChunks], fun seg member => ?_⟩
        obtain rfl : seg = _ := by simpa [puts] using member
        exact PendingLoss.even_flatten opened
    refine ⟨now.1, fun s member => ?_⟩
    rw [puts_append, List.mem_append] at member
    exact member.elim (emitted s) (now.2 s)

/-- What a channel holds are whole samples. -/
def Whole (state : ChannelState σ) : Prop :=
  (∀ chunk ∈ openChunks (track state), Even chunk.length) ∧
    ∀ entry ∈ state.preroll, Even entry.2.length

theorem Whole.fresh (iterators : Str → σ) (c : Str) : Whole (freshChannels it iterators c) := by
  constructor
  · simp [freshChannels, track, openChunks]
  · simp [freshChannels]

theorem Whole.flush (c : Str) {state : ChannelState σ} (h : Coherent anyTime cfg it state)
    (whole : Whole state) : Whole (flushChannel cfg it c state).1 ∧
      ∀ s ∈ puts (flushChannel cfg it c state).2, Even s.audio.length := by
  obtain ⟨run, _, preroll, _⟩ := flushChannel_run c h
  obtain ⟨opened, emitted⟩ := run_even run (by simpa using whole.1)
  exact ⟨⟨opened, preroll ▸ whole.2⟩, emitted⟩

/-- A packet of half a sample is raised on, and leaves nothing. -/
theorem Whole.handlePacket (packet : AudioPacket) (now : ℚ) {state : ChannelState σ}
    (h : Coherent anyTime cfg it state) (whole : Whole state) :
    Whole (handlePacket cfg it packet now state).1 ∧
      ∀ s ∈ puts (handlePacket cfg it packet now state).2, Even s.audio.length := by
  have decoded (heard : raises cfg it packet state = false) : Even packet.samples.length := by
    by_contra odd
    rw [← pcmToFloat_eq_none] at odd
    simp [raises, odd] at heard
  obtain ⟨outcome, _⟩ := handlePacket_cases packet now h trivial
  cases outcome with
  | raised _ silent same preroll =>
    rw [silent]
    exact ⟨⟨same ▸ whole.1, preroll ▸ whole.2⟩, by simp [puts]⟩
  | outOfSpeech heard _ _ silent same preroll =>
    rw [silent]
    refine ⟨⟨same ▸ whole.1, fun entry member => ?_⟩, by simp [puts]⟩
    rw [preroll] at member
    rcases List.mem_append.mp ((pushPreroll_sublist packet state).subset member) with old | new
    · exact whole.2 entry old
    · rw [List.mem_singleton.mp new]
      exact decoded heard
  | started heard before _ run preroll =>
    obtain ⟨opened, emitted⟩ := run_even run (by
      intro chunk member
      simp only [List.mem_append, List.mem_map, List.mem_singleton] at member
      rcases member with old | ⟨entry, inside, rfl⟩ | rfl
      · exact whole.1 chunk old
      · exact whole.2 entry inside
      · exact decoded heard)
    exact ⟨⟨opened, by simp [preroll]⟩, emitted⟩
  | inSpeech heard before run preroll =>
    obtain ⟨opened, emitted⟩ := run_even run (by
      intro chunk member
      rcases List.mem_append.mp member with old | new
      · exact whole.1 chunk old
      · rw [List.mem_singleton.mp new]
        exact decoded heard)
    exact ⟨⟨opened, by simp [preroll]⟩, emitted⟩

theorem Whole.worker (keys : ChannelKeys) {channels : Channels σ}
    (coherent : ∀ c, Coherent anyTime cfg it (channels c)) (whole : ∀ c, Whole (channels c))
    (event : VadEvent) (c : Str) :
    Whole ((workerStep cfg it keys channels event).1 c) ∧
      ∀ s ∈ puts (effectsOn c (workerStep cfg it keys channels event).2), Even s.audio.length := by
  by_cases configured : c ∈ keys.val
  · have here := workerStep_channel cfg it keys channels event configured
    by_cases own : concerns c event = true
    · rw [if_pos own, Prod.ext_iff] at here
      simp only at here
      rw [here.1, here.2]
      cases event with
      | packet packet now => exact (whole c).handlePacket packet now (coherent c)
      | idleCheck now =>
        simp only [channelStep]
        split
        · exact ⟨whole c, by simp [puts]⟩
        split
        · exact (whole c).flush c (coherent c)
        · exact ⟨whole c, by simp [puts]⟩
      | flush => exact (whole c).flush c (coherent c)
    · rw [if_neg own, Prod.ext_iff] at here
      simp only at here
      rw [here.1, here.2]
      exact ⟨whole c, by simp [puts]⟩
  · rw [workerStep_unconfigured cfg it keys channels event configured,
      workerStep_elsewhere keys channels event configured]
    exact ⟨whole c, by simp [puts]⟩

end Whole

section Copies

variable {cfg it r pc}
variable {p p' : Path σ} {e : PathEvent σ} {messages later : List MQTTMessage}

/-- Of whole samples, and all of them from its channel's messages. -/
def Genuine (pc : PathConfig) (messages : List MQTTMessage) (seg : SpeechSegment) : Prop :=
  Even seg.audio.length ∧ seg.audio.Sublist (payloads pc.channels seg.channelId messages)

theorem Genuine.longer {seg : SpeechSegment} (h : Genuine pc messages seg)
    (longer : messages <+: later) : Genuine pc later seg :=
  ⟨h.1, h.2.trans (payloads_longer pc.channels seg.channelId longer)⟩

/-- What the VADWorker holds, has in hand and copied. -/
structure Copies (pc : PathConfig) (p : Path σ) : Prop where
  whole : ∀ c, Whole (p.channels c)
  putting : ∀ put ∈ p.putting, Genuine pc p.received put.2.2 ∧
    (put.1 = .dump → put.2.2.isPartial = false)
  queue : ∀ seg ∈ p.segmentDump, Genuine pc p.received seg ∧ seg.isPartial = false

theorem Copies.start (iterators : Str → σ) :
    Copies pc { channels := freshChannels it iterators } :=
  ⟨Whole.fresh iterators, by simp, by simp⟩

theorem effectPuts_segment {dumping : Bool} {c : Str} {effect : Effect}
    {put : Destination × Str × SpeechSegment} (member : put ∈ effectPuts dumping (c, effect))
    (own : OfChannel c effect) :
    put.2.1 = c ∧ put.2.2 ∈ puts [effect] ∧ (put.1 = .dump → put.2.2.isPartial = false) := by
  cases effect with
  | minted id => cases member
  | putNowait segment =>
    rw [List.mem_singleton.mp member]
    exact ⟨rfl, by simp [puts], by simp⟩
  | fanoutPut segment =>
    have same := fanoutPut_item member
    rw [same]
    exact ⟨rfl, by simp [puts], fun _ => own.2⟩

theorem Copies.turn (copies : Copies pc p) (sound : Sound cfg it r pc p) (event : VadEvent)
    (routed heard : List AudioPacket)
    (voiced : Voiced cfg it r pc ({ p with routed, heard }.turn cfg it pc event)) :
    Copies pc ({ p with routed, heard }.turn cfg it pc event) := by
  have own := workerStep_ofChannel pc.keys sound.coherent event
  have worked := Whole.worker pc.keys sound.coherent copies.whole event
  refine ⟨fun c => (worked c).1, fun put member => ?_, copies.queue⟩
  obtain ⟨⟨c, effect⟩, made, inside⟩ := List.mem_flatMap.mp member
  obtain ⟨channel, segment, final⟩ := effectPuts_segment inside (own _ made)
  have emitted : put.2.2 ∈ puts (effectsOn c (workerStep cfg it pc.keys p.channels event).2) := by
    obtain ⟨past, after, whole⟩ := List.append_of_mem made
    rw [whole, ← List.singleton_append, effectsOn_append, effectsOn_append, puts_append,
          puts_append]
    simp [effectsOn, segment]
  have named : put.2.2.channelId = c := by
    rw [← channel]
    exact voiced.sound.putting put member
  refine ⟨⟨(worked c).2 _ emitted, ?_⟩, final⟩
  rw [named]
  refine voiced.audio c _ ?_
  simp only [spoken, Path.turn, segmentsOn_effects]
  exact List.mem_append_right _ (List.mem_append_right _ emitted)

theorem received_longer (step : pathStep cfg it r pc p e = some p') :
    p.received <+: p'.received := by
  cases spoken_step step with
  | turned event heard channels same => rw [same]
  | moved channels longer => exact longer
  | replaced iterators same => rw [same]

theorem Copies.step (copies : Copies pc p) (voiced : Voiced cfg it r pc p)
    (step : pathStep cfg it r pc p e = some p') : Copies pc p' := by
  have after := voiced.step step
  obtain ⟨whole, putting, queue⟩ := copies
  cases pathStep_cases step with
  | ignored msg | arrived msg =>
    have longer : p.received <+: p.received ++ [msg] := List.prefix_append _ _
    exact ⟨whole, fun put member => ⟨(putting put member).1.longer longer, (putting put member).2⟩,
      fun seg member => ⟨(queue seg member).1.longer longer, (queue seg member).2⟩⟩
  | routed | forwarded | copied | took | tookDump | restartedRouter =>
    exact ⟨whole, putting, queue⟩
  | heard now frame routed idle next =>
    exact Copies.turn ⟨whole, putting, queue⟩ voiced.sound _ _ _ after
  | checked now idle =>
    exact Copies.turn ⟨whole, putting, queue⟩ voiced.sound _ p.routed p.heard after
  | flushed idle =>
    exact Copies.turn ⟨whole, putting, queue⟩ voiced.sound _ p.routed p.heard after
  | emitted gaveUp c segment rest next =>
    exact ⟨whole, fun put member => putting put (next ▸ List.mem_cons_of_mem _ member), queue⟩
  | emittedCopy gaveUp c segment rest next segmentDump put =>
    have first := putting _ (next ▸ List.mem_cons_self)
    exact ⟨whole, fun put member => putting put (next ▸ List.mem_cons_of_mem _ member),
      forall_offer put queue ⟨first.1, first.2 rfl⟩⟩
  | tookSegmentDump segment segmentDump next =>
    exact ⟨whole, putting, fun seg member => queue seg (next ▸ List.mem_cons_of_mem _ member)⟩
  | restartedVad iterators => exact ⟨Whole.fresh iterators, by simp, queue⟩

end Copies

section Runs

variable {cfg it r pc}
variable {s s' : Dumping σ} {e : PathEvent σ} {iterators : Str → σ} {events : List (PathEvent σ)}

/-- To the path a step is one of its own; the worker handles what it takes. -/
theorem dumpingStep_cases (step : dumpingStep cfg it r pc s e = some s') :
    pathStep cfg it r pc s.path e = some s'.path ∧
      ((e ≠ .takeSegmentDump ∧ s'.worker = s.worker ∧ s'.handled = s.handled) ∨
        ∃ seg, e = .takeSegmentDump ∧ s.path.segmentDump = seg :: s'.path.segmentDump ∧
          s'.worker = s.worker.handle seg ∧ s'.handled = s.handled ++ [seg]) := by
  by_cases mine : e = .takeSegmentDump
  · subst mine
    simp only [dumpingStep, Option.ite_none_left_eq_some] at step
    obtain ⟨_, step⟩ := step
    cases next : s.path.segmentDump with
    | nil => simp [next] at step
    | cons seg rest =>
      simp only [next, Option.map_eq_some_iff] at step
      obtain ⟨path, moved, rfl⟩ := step
      refine ⟨moved, Or.inr ⟨seg, rfl, ?_, rfl, rfl⟩⟩
      cases pathStep_cases moved with
      | tookSegmentDump first queue now =>
        rw [next] at now
        rw [(List.cons_eq_cons.mp now).2]
  · have other : (pathStep cfg it r pc s.path e).map (fun path => { s with path }) = some s' := by
      cases e with
      | takeSegmentDump => exact absurd rfl mine
      | _ => exact step
    obtain ⟨path, moved, rfl⟩ := Option.map_eq_some_iff.mp other
    exact ⟨moved, Or.inl ⟨mine, rfl, rfl⟩⟩

/-- The worker wrote the files of what it took. -/
structure Filed (cfg : VADWorkerConfig) (it : VADIterator σ) (r : ChannelRouter.Repacketizer)
    (pc : PathConfig) (s : Dumping σ) : Prop where
  voiced : Voiced cfg it r pc s.path
  copies : Copies pc s.path
  alive : s.worker.raised = false
  counter : s.worker.counter = s.handled.length
  written : s.worker.written.map (fun file => (file.1, AudioDump.pcm16 file.2)) = filesOf s.handled
  handled : ∀ seg ∈ s.handled, Genuine pc s.path.received seg ∧ seg.isPartial = false

theorem Filed.step (filed : Filed cfg it r pc s) (step : dumpingStep cfg it r pc s e = some s') :
    Filed cfg it r pc s' := by
  obtain ⟨moved, worker⟩ := dumpingStep_cases step
  have longer := received_longer moved
  have old : ∀ seg ∈ s.handled, Genuine pc s'.path.received seg ∧ seg.isPartial = false :=
    fun seg member => ⟨(filed.handled seg member).1.longer longer, (filed.handled seg member).2⟩
  have voiced := filed.voiced.step moved
  have copies := filed.copies.step filed.voiced moved
  rcases worker with ⟨_, same, handled⟩ | ⟨seg, rfl, next, worked, handled⟩
  · exact ⟨voiced, copies, same ▸ filed.alive, by rw [same, handled, filed.counter],
      by rw [same, handled, filed.written], handled ▸ old⟩
  · have first := filed.copies.queue seg (next ▸ List.mem_cons_self)
    obtain ⟨pcm, read⟩ := Option.isSome_iff_exists.mp ((int16Samples_isSome _).mpr first.1.1)
    rw [SegmentAudioDumpWorker.handle, read] at worked
    refine ⟨voiced, copies, by rw [worked]; exact filed.alive, ?_, ?_, ?_⟩
    · rw [worked, handled, List.length_append, filed.counter]
      rfl
    · rw [worked, handled, filesOf_concat, List.map_append, filed.written, filed.counter]
      simp [AudioDump.pcm16_int16Samples read]
    · intro other member
      rw [handled] at member
      rcases List.mem_append.mp member with before | new
      · exact old other before
      · rw [List.mem_singleton.mp new]
        exact ⟨first.1.longer longer, first.2⟩

theorem Filed.start : Filed cfg it r pc { path := { channels := freshChannels it iterators } } :=
  ⟨⟨Sound.start iterators, fun c s member => by cases member⟩, Copies.start iterators, rfl, rfl,
    rfl, by simp⟩

theorem run_filed
    (reached : run (dumpingStep cfg it r pc) { path := { channels := freshChannels it iterators } }
      events = some s) : Filed cfg it r pc s :=
  run_invariant (dumpingStep cfg it r pc) Filed.start
    (fun _ _ _ before step => before.step step) reached

/-- Whatever the settings and the audio, whatever is dropped and whatever is replaced, the
worker never raises, no file overwrites another, and each holds the samples of one final that
came to the worker, numbered in order, all of them from its channel's messages. -/
theorem segment_files_whole
    (reached : run (dumpingStep cfg it r pc) { path := { channels := freshChannels it iterators } }
      events = some s) :
    s.worker.raised = false ∧ (s.worker.written.map Prod.fst).Nodup ∧
      s.worker.written.map (fun file => (file.1, AudioDump.pcm16 file.2)) =
        s.handled.mapIdx (fun k seg => (segmentFile (k + 1) seg, seg.audio)) ∧
      ∀ seg ∈ s.handled, seg.isPartial = false ∧
        seg.audio.Sublist (payloads pc.channels seg.channelId s.path.received) := by
  have filed := run_filed reached
  refine ⟨filed.alive, ?_, filed.written, fun seg member => ?_⟩
  · have distinct := filesOf_nodup s.handled
    rw [← filed.written, List.map_map] at distinct
    exact distinct
  · exact ⟨(filed.handled seg member).2, (filed.handled seg member).1.2⟩

def copied : PathConfig := { onePlace with dumping := false, segmentDumping := true }

/-- Two words, and the second is still on its way to the STT worker. -/
def wordsDumped : List (PathEvent Bool) :=
  [.message ⟨['a', '/', 'r'], [1, 0], 0⟩ false, .route, .forward false, .hear 0,
    .message ⟨['a', '/', 'r'], [0, 0], 1⟩ false, .route, .forward false, .hear 1,
    .emit false, .emit false, .take ['r'], .takeSegmentDump,
    .message ⟨['a', '/', 'r'], [2, 0], 3⟩ false, .route, .forward false, .hear 3,
    .message ⟨['a', '/', 'r'], [0, 0], 4⟩ false, .route, .forward false, .hear 4,
    .emit false, .emit false, .takeSegmentDump]

theorem wordsDumped_whole :
    ∃ s, run (dumpingStep ungated levelIterator ⟨2, 2, 1, Nat.two_pos⟩ copied)
        { path := { channels := freshChannels levelIterator fun _ => false } } wordsDumped =
          some s ∧
      s.worker.written = [("r_001_0.00-1.00s.wav".toList, [1, 0]),
        ("r_002_3.00-4.00s.wav".toList, [2, 0])] ∧
      (s.worker.written.map Prod.fst).Nodup := by
  have ends : ((run (dumpingStep ungated levelIterator ⟨2, 2, 1, Nat.two_pos⟩ copied)
      { path := { channels := freshChannels levelIterator fun _ => false } } wordsDumped).map
        fun s => s.worker.written) = some [("r_001_0.00-1.00s.wav".toList, [1, 0]),
          ("r_002_3.00-4.00s.wav".toList, [2, 0])] := by
    decide +kernel
  obtain ⟨s, reached, written⟩ := Option.map_eq_some_iff.mp ends
  exact ⟨s, reached, written, (segment_files_whole reached).2.1⟩

/-- No put of a segment gives up, and the VADWorker is not replaced. -/
def Gentle : PathEvent σ → Prop
  | .emit gaveUp => gaveUp = false
  | .restartVad _ => False
  | _ => True

instance : (e : PathEvent σ) → Decidable (Gentle e)
  | .emit gaveUp => inferInstanceAs (Decidable (gaveUp = false))
  | .restartVad _ => isFalse id
  | .message _ _ | .route | .forward _ | .hear _ | .idleCheck _ | .flush | .take _ | .takeDump
  | .takeSegmentDump | .restartRouter => isTrue trivial

def final (segments : List SpeechSegment) : List SpeechSegment :=
  segments.filter fun seg => !seg.isPartial

def ofChannel (c : Str) (segments : List SpeechSegment) : List SpeechSegment :=
  segments.filter fun seg => seg.channelId = c

theorem final_append (segments more : List SpeechSegment) :
    final (segments ++ more) = final segments ++ final more := List.filter_append ..

theorem ofChannel_append (c : Str) (segments more : List SpeechSegment) :
    ofChannel c (segments ++ more) = ofChannel c segments ++ ofChannel c more :=
  List.filter_append ..

/-- A final is put on both queues, a partial on one. -/
theorem copies_effects {effects : List (Str × Effect)}
    (own : ∀ put ∈ effects, OfChannel put.1 put.2) (c : Str) :
    segmentsOn c (owed .dump (effects.flatMap (effectPuts true))) =
      final (puts (effectsOn c effects)) := by
  induction effects with
  | nil => rfl
  | cons put effects ih =>
    have rest := ih fun e member => own e (List.mem_cons_of_mem _ member)
    have kind := own put List.mem_cons_self
    obtain ⟨d, effect⟩ := put
    rw [List.flatMap_cons, owed_append, segmentsOn_append, rest,
      ← @List.singleton_append _ (d, effect) effects, effectsOn_append, puts_append, final_append]
    congr 1
    cases effect with
    | minted id =>
      by_cases here : d = c
      · simp [effectPuts, owed, effectsOn, puts, final, here]
      · simp [effectPuts, owed, effectsOn, puts, final, here]
    | putNowait segment =>
      by_cases here : d = c
      · simp [effectPuts, owed, effectsOn, puts, final, here, kind.2]
      · simp [effectPuts, owed, effectsOn, puts, final, here]
    | fanoutPut segment =>
      by_cases here : d = c
      · simp [effectPuts, fanoutPut, owed, segmentsOn, effectsOn, puts, final, here, kind.2]
      · simp [effectPuts, fanoutPut, owed, segmentsOn, effectsOn, puts, final, here]

/-- On a channel the finals are where the copies are, or were. -/
def Matched (s : Dumping σ) (c : Str) : Prop :=
  final (spoken s.path c) = ofChannel c s.handled ++
    (ofChannel c s.path.segmentDump ++ segmentsOn c (owed .dump s.path.putting))

theorem matched_turn (dumping : pc.segmentDumping = true) {p : Path σ}
    (sound : Sound cfg it r pc p) (idle : p.putting = []) (event : VadEvent)
    (routed heard : List AudioPacket) {handled : List SpeechSegment} {c : Str}
    (matched : final (spoken p c) = ofChannel c handled ++
      (ofChannel c p.segmentDump ++ segmentsOn c (owed .dump p.putting))) :
    final (spoken ({ p with routed, heard }.turn cfg it pc event) c) = ofChannel c handled ++
      (ofChannel c p.segmentDump ++ segmentsOn c (owed .dump
        ({ p with routed, heard }.turn cfg it pc event).putting)) := by
  have copies := copies_effects (workerStep_ofChannel pc.keys sound.coherent event) c
  rw [spoken, idle, owed_nil, owed_nil, segmentsOn_nil, List.append_nil, List.append_nil,
    final_append] at matched
  simp only [spoken, Path.turn, segmentsOn_effects, dumping, copies, final_append]
  rw [← List.append_assoc, matched, List.append_assoc]

theorem Matched.step (dumping : pc.segmentDumping = true) {c : Str} (matched : Matched s c)
    (filed : Filed cfg it r pc s) (gentle : Gentle e)
    (step : dumpingStep cfg it r pc s e = some s') : Matched s' c := by
  obtain ⟨moved, worker⟩ := dumpingStep_cases step
  obtain ⟨path', worker', handled'⟩ := s'
  have sound := filed.voiced.sound
  unfold Matched at matched ⊢
  rcases worker with ⟨other, _, rfl⟩ | ⟨seg, rfl, next, _, rfl⟩
  · cases pathStep_cases moved with
    | ignored | arrived | routed | forwarded | copied | tookDump | restartedRouter => exact matched
    | heard now frame routed idle next => exact matched_turn dumping sound idle _ _ _ matched
    | checked now idle =>
      exact matched_turn dumping sound idle _ s.path.routed s.path.heard matched
    | flushed idle =>
      exact matched_turn dumping sound idle _ s.path.routed s.path.heard matched
    | emitted gaveUp d segment rest next queue put =>
      obtain rfl := gentle
      rcases offer_cases put with ⟨rfl, _⟩ | ⟨_, full⟩
      · rw [spoken_emitted next, matched, next, owed_cons, if_neg (by simp), List.nil_append]
      · simp [offer, full] at put
    | emittedCopy gaveUp d segment rest next segmentDump put =>
      obtain rfl := gentle
      have named : segment.channelId = d := sound.putting _ (next ▸ List.mem_cons_self)
      rcases offer_cases put with ⟨rfl, _⟩ | ⟨_, full⟩
      · rw [spoken_copied next, matched, next, owed_cons, if_pos rfl, segmentsOn_append,
          ofChannel_append]
        by_cases here : d = c
        · simp [segmentsOn_cons, ofChannel, named, here]
        · simp [segmentsOn_cons, ofChannel, named, here]
      · simp [offer, full] at put
    | took d segment queue next =>
      rw [spoken_took next]
      exact matched
    | tookSegmentDump => exact absurd rfl other
    | restartedVad => cases gentle
  · cases pathStep_cases moved with
    | tookSegmentDump first queue now =>
      simp only [now, List.cons.injEq, and_true] at next
      rw [now, ← List.singleton_append, ofChannel_append] at matched
      rw [ofChannel_append, ← next]
      simpa [spoken, List.append_assoc] using matched

/-- Where no put of a segment gives up and the VADWorker is not replaced, the files of a channel
are, in the order of their numbers, of the finals that its STT worker gets. -/
theorem segment_files_show_speech (dumping : pc.segmentDumping = true)
    (gentle : Along (dumpingStep cfg it r pc) (fun _ => Gentle)
      { path := { channels := freshChannels it iterators } } events)
    (reached : run (dumpingStep cfg it r pc) { path := { channels := freshChannels it iterators } }
      events = some s) :
    s.worker.written.map (fun file => (file.1, AudioDump.pcm16 file.2)) = filesOf s.handled ∧
      (∀ c, ofChannel c s.handled <+: final (spoken s.path c)) ∧
      (s.path.segmentDump = [] → s.path.putting = [] →
        ∀ c, ofChannel c s.handled = final (s.path.taken c ++ s.path.segments c)) := by
  have both := run_invariant_along (dumpingStep cfg it r pc)
    (I := fun s => Filed cfg it r pc s ∧ ∀ c, Matched s c)
    ⟨Filed.start, fun _ => rfl⟩
    (fun _ _ _ before gentle step => ⟨before.1.step step,
      fun c => (before.2 c).step dumping before.1 gentle step⟩) gentle reached
  refine ⟨both.1.written, fun c => ?_, fun queue hands c => ?_⟩
  · rw [both.2 c]
    exact List.prefix_append _ _
  · have all := both.2 c
    rw [Matched, spoken, queue, hands, owed_nil, owed_nil, segmentsOn_nil, List.append_nil] at all
    simpa [ofChannel] using all.symm

theorem wordsDumped_shown :
    ∃ s, run (dumpingStep ungated levelIterator ⟨2, 2, 1, Nat.two_pos⟩ copied)
        { path := { channels := freshChannels levelIterator fun _ => false } } wordsDumped =
          some s ∧
      (s.path.taken ['r']).map SpeechSegment.audio = [[1, 0, 0, 0]] ∧
      (s.path.segments ['r']).map SpeechSegment.audio = [[2, 0, 0, 0]] ∧
      ofChannel ['r'] s.handled = final (s.path.taken ['r'] ++ s.path.segments ['r']) := by
  have ends : ((run (dumpingStep ungated levelIterator ⟨2, 2, 1, Nat.two_pos⟩ copied)
      { path := { channels := freshChannels levelIterator fun _ => false } } wordsDumped).map
        fun s => ((s.path.taken ['r']).map SpeechSegment.audio,
          (s.path.segments ['r']).map SpeechSegment.audio,
          decide (s.path.segmentDump = [] ∧ s.path.putting = []))) =
        some ([[1, 0, 0, 0]], [[2, 0, 0, 0]], true) := by
    decide +kernel
  obtain ⟨s, reached, facts⟩ := Option.map_eq_some_iff.mp ends
  simp only [Prod.mk.injEq, decide_eq_true_eq] at facts
  obtain ⟨taken, waiting, queue, hands⟩ := facts
  have shown := segment_files_show_speech rfl (by decide +kernel) reached
  exact ⟨s, reached, taken, waiting, shown.2.2 queue hands ['r']⟩

end Runs

end EdgeVoice.SegmentDump
