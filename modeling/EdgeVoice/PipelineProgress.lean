import EdgeVoice.Cascade
import EdgeVoice.SequentialPath

/-! Once the broker is silent the pipeline gets done. Its threads wait on one another's queues,
but only ever a stage on the next one, and a full debug queue holds nothing up, so some thread can
always go on until each transcript of what was heard is on its way to the pages. -/

namespace EdgeVoice.PipelineProgress
open PythonText Models ChannelRouter VadWorker VadTrack SttWorker SegmentLifecycle StepSystem
  LossyQueue AudioPath SegmentPath ChannelIsolation Broadcast TranscriptHub TranscriptStream
  StreamSession LiveTranscripts SequentialPath Cascade

section Hub

variable {maxlen : ℕ} {hub hub' : Hub} {e : HubEvent}

/-- What a step does to the puts that publishers owe. -/
inductive PendingCase (hub hub' : Hub) : HubEvent → Prop
  | published (publisher : ℕ) (event : TranscriptEvent) (order : List ℕ)
      (owes : hub'.topic.pending = Function.update hub.topic.pending publisher
        (order.map (hub.topic.next publisher event, ·))) :
    PendingCase hub hub' (.publish publisher event order)
  | put (publisher : ℕ) (full : Bool) (first : Published × ℕ) (rest : List (Published × ℕ))
      (owed : hub.topic.pending publisher = first :: rest)
      (owes : hub'.topic.pending = Function.update hub.topic.pending publisher rest) :
    PendingCase hub hub' (.put publisher full)
  | other {e : HubEvent} (unpublished : ∀ publisher event order, e ≠ .publish publisher event order)
      (unput : ∀ publisher full, e ≠ .put publisher full)
      (same : hub'.topic.pending = hub.topic.pending) : PendingCase hub hub' e

theorem hubStep_pending (step : hubStep maxlen hub e = some hub') : PendingCase hub hub' e := by
  cases hubStep_cases step with
  | published publisher event order => exact .published publisher event order rfl
  | put publisher q x rest owes =>
    exact .put publisher false (x, q) rest owes (by simp [Topic.settle, owes])
  | dropped publisher q x rest owes =>
    exact .put publisher true (x, q) rest owes (by simp [Topic.settle, owes])
  | subscribed joined joins =>
    refine .other (by simp) (by simp) ?_
    rw [subscribe_eq_some joins]
    rfl
  | refused | unsubscribed | cleared | got => exact .other (by simp) (by simp) rfl

/-- A publisher owes only what it publishes. -/
theorem PendingCase.owes_none (h : PendingCase hub hub' e) {p : ℕ}
    (apart : ∀ event order, e ≠ .publish p event order) (owes : hub.topic.pending p = []) :
    hub'.topic.pending p = [] := by
  cases h with
  | published publisher event order now =>
    have other : p ≠ publisher := fun same => apart event order (by rw [same])
    rw [now, Function.update_of_ne other]
    exact owes
  | put publisher full first rest owed now =>
    have other : p ≠ publisher := by
      rintro rfl
      simp [owes] at owed
    rw [now, Function.update_of_ne other]
    exact owes
  | other unpublished unput same =>
    rw [same]
    exact owes

theorem wiredStep_pending {floats : Floats} {createdAt : Published → ℚ} {w w' : Wired}
    {f : WiredEvent} (step : wiredStep floats createdAt maxlen w f = some w') :
    (∃ e, f = .hub e ∧ PendingCase w.hub w'.hub e) ∨
      (∀ e, f ≠ .hub e) ∧ w'.hub.topic.pending = w.hub.topic.pending := by
  cases wiredStep_cases step with
  | moved e hub elsewhere moved => exact Or.inl ⟨e, rfl, hubStep_pending moved⟩
  | connected free hub joins =>
    refine Or.inr ⟨by simp, ?_⟩
    rw [subscribe_eq_some joins]
    rfl
  | sent c reads x rest waits hub moved =>
    cases hubStep_pending moved with
    | other unpublished unput same => exact Or.inr ⟨by simp, same⟩
  | refused | received | disconnected => exact Or.inr ⟨by simp, rfl⟩

end Hub

section Path

variable {σ : Type} {cfg : VADWorkerConfig} {it : VADIterator σ} {r : Repacketizer}
variable {pc : PathConfig} {p p' : Path σ} {e : PathEvent σ}

theorem effects_known (keys : ChannelKeys) (channels : Channels σ) (event : VadEvent) :
    ∀ put ∈ (workerStep cfg it keys channels event).2, put.1 ∈ keys.val := by
  rintro ⟨c, effect⟩ member
  by_contra other
  have none := workerStep_unconfigured cfg it keys channels event other
  have mine : effect ∈ effectsOn c (workerStep cfg it keys channels event).2 :=
    List.mem_map.mpr ⟨(c, effect), List.mem_filter.mpr ⟨member, by simp⟩, rfl⟩
  rw [none] at mine
  cases mine

theorem effectPuts_channel {dumping : Bool} {effect : Str × Effect}
    {put : Destination × Str × SpeechSegment} (member : put ∈ effectPuts dumping effect) :
    put.2.1 = effect.1 := by
  obtain ⟨c, effect⟩ := effect
  cases effect with
  | minted id => cases member
  | putNowait segment =>
    rw [List.mem_singleton.mp member]
  | fanoutPut segment => rw [fanoutPut_item member]

/-- The chunks of an utterance that an idle check may close. -/
def hanging (cfg : VADWorkerConfig) (state : ChannelState σ) : List (List UInt8) :=
  if cfg.idleFlushS ≤ 0 ∨ state.segmentStartTs = none then [] else state.segmentChunks

/-- An idle check closes a channel's utterance, or leaves the channel as it was. -/
theorem channelStep_idle (c : Str) (state : ChannelState σ) (now : ℚ) :
    channelStep cfg it c state (.idleCheck now) = (state, []) ∨
      hanging cfg state ≠ [] ∧ hanging cfg (channelStep cfg it c state (.idleCheck now)).1 = [] ∧
        (channelStep cfg it c state (.idleCheck now)).2 ≠ [] := by
  simp only [channelStep]
  by_cases never : cfg.idleFlushS ≤ 0
  · exact Or.inl (if_pos never)
  rw [if_neg never]
  by_cases due : cfg.idleFlushS ≤ now - state.lastPacketAt
  · rw [if_pos due]
    unfold flushChannel
    cases begun : state.segmentStartTs with
    | none => exact Or.inl rfl
    | some startTs =>
      by_cases empty : state.segmentChunks = []
      · simp [empty]
      · simp [hanging, never, begun, empty, finalizeSegment]
  · exact Or.inl (if_neg due)

/-- An idle check of the worker closes utterances, or leaves all as it was. -/
theorem workerStep_idle (keys : ChannelKeys) (channels : Channels σ) (now : ℚ) :
    ((workerStep cfg it keys channels (.idleCheck now)).2 = [] →
      (workerStep cfg it keys channels (.idleCheck now)).1 = channels) ∧
    ((workerStep cfg it keys channels (.idleCheck now)).2 ≠ [] →
      total keys.val.toFinset
          (fun c => hanging cfg ((workerStep cfg it keys channels (.idleCheck now)).1 c)) <
        total keys.val.toFinset fun c => hanging cfg (channels c)) := by
  have each (c : Str) (known : c ∈ keys.val) :
      (workerStep cfg it keys channels (.idleCheck now)).1 c =
        (channelStep cfg it c (channels c) (.idleCheck now)).1 := if_pos known
  constructor
  · intro silent
    funext c
    by_cases known : c ∈ keys.val
    · rw [each c known]
      rcases channelStep_idle c (channels c) now with same | ⟨_, _, loud⟩
      · rw [same]
      · have own : (channelStep cfg it c (channels c) (.idleCheck now)).2 = [] := by
          simp only [workerStep, forEachChannel, List.flatMap_eq_nil_iff, List.map_eq_nil_iff]
            at silent
          exact silent c known
        exact absurd own loud
    · exact workerStep_elsewhere keys channels _ known
  · intro loud
    have closed (c : Str) (known : c ∈ keys.val) :
        (hanging cfg ((workerStep cfg it keys channels (.idleCheck now)).1 c)).length ≤
          (hanging cfg (channels c)).length := by
      rw [each c known]
      rcases channelStep_idle c (channels c) now with same | ⟨_, none, _⟩
      · rw [same]
      · simp [none]
    refine Finset.sum_lt_sum (fun c known => closed c (List.mem_toFinset.mp known)) ?_
    obtain ⟨⟨c, effect⟩, member⟩ := List.exists_mem_of_ne_nil _ loud
    obtain ⟨d, known, made⟩ := List.mem_flatMap.mp member
    refine ⟨d, List.mem_toFinset.mpr known, ?_⟩
    beta_reduce
    rw [each d known]
    rcases channelStep_idle d (channels d) now with same | ⟨some, none, _⟩
    · rw [same] at made
      cases made
    · rw [none, List.length_nil]
      exact List.length_pos_of_ne_nil some

theorem path_confined (putting : ∀ put ∈ p.putting, put.2.1 ∈ pc.keys.val)
    (segments : ∀ c ∉ pc.keys.val, p.segments c = [])
    (step : pathStep cfg it r pc p e = some p') :
    (∀ put ∈ p'.putting, put.2.1 ∈ pc.keys.val) ∧ ∀ c ∉ pc.keys.val, p'.segments c = [] := by
  have turned (p : Path σ) (event : VadEvent) :
      ∀ put ∈ (p.turn cfg it pc event).putting, put.2.1 ∈ pc.keys.val := by
    intro put member
    obtain ⟨effect, made, inside⟩ := List.mem_flatMap.mp member
    rw [effectPuts_channel inside]
    exact effects_known pc.keys p.channels event effect made
  cases pathStep_cases step with
  | ignored | arrived | routed | forwarded | copied => exact ⟨putting, segments⟩
  | tookDump | tookSegmentDump | restartedRouter => exact ⟨putting, segments⟩
  | heard now frame routed idle next => exact ⟨turned _ _, segments⟩
  | checked now idle => exact ⟨turned p _, segments⟩
  | flushed idle => exact ⟨turned p _, segments⟩
  | emitted gaveUp c segment rest next queue put =>
    have known : c ∈ pc.keys.val := putting (.dst, c, segment) (by simp [next])
    refine ⟨fun put member => putting put (by simp [next, member]), fun d other => ?_⟩
    have apart : d ≠ c := fun same => other (same ▸ known)
    simp only [Function.update_of_ne apart]
    exact segments d other
  | emittedCopy gaveUp c segment rest next =>
    exact ⟨fun put member => putting put (by simp [next, member]), segments⟩
  | took c segment queue next =>
    refine ⟨putting, fun d other => ?_⟩
    have apart : d ≠ c := by
      rintro rfl
      simp [segments d other] at next
    simp only [Function.update_of_ne apart]
    exact segments d other
  | restartedVad => exact ⟨by simp, segments⟩

end Path

section Stages

variable {σ τ : Type} {o : Orchestrator σ τ} {s s' : Live σ τ} {e : LiveEvent σ τ}
variable {iterators : Str → σ} {transcribers : Str → τ} {labels : List (LiveEvent σ τ)}

/-- The threads' turns on what waits for them, from the ingest queue to the subscribers'. An idle
check has something to do where it closes an utterance. -/
def stage (o : Orchestrator σ τ) (s : Live σ τ) : LiveEvent σ τ → Option (Fin 8)
  | .path .route => some 0
  | .path (.forward _) => some 1
  | .path (.hear _) => some 2
  | .path (.idleCheck now) =>
    if (workerStep o.vad o.iterator o.path.keys s.path.channels (.idleCheck now)).2 = [] then none
    else some 3
  | .path (.emit _) => some 4
  | .decode _ _ => some 5
  | .publish _ _ => some 6
  | .console (.hub (.put _ _)) => some 7
  | _ => none

/-- What waits for each stage. -/
def waiting (o : Orchestrator σ τ) (s : Live σ τ) : Fin 8 → ℕ :=
  ![s.path.ingest.length, s.path.routing.length, s.path.routed.length,
    total o.path.keys.val.toFinset fun c => hanging o.vad (s.path.channels c),
    s.path.putting.length, total o.path.keys.val.toFinset s.path.segments,
    total o.path.keys.val.toFinset s.results,
    total (Finset.range (o.path.keys.val.length + 1)) s.console.hub.topic.pending]

def fromBroker : LiveEvent σ τ → Bool
  | .path (.message _ _) => true
  | _ => false

/-- No message comes, and nothing is lost for good. -/
def Quiet (s : Live σ τ) (e : LiveEvent σ τ) : Prop := fromBroker e = false ∧ Unharmed s e

instance (s : Live σ τ) (e : LiveEvent σ τ) : Decidable (Quiet s e) :=
  inferInstanceAs (Decidable (_ ∧ _))

/-- Only the configured channels have anything on their queues. -/
structure Confined (o : Orchestrator σ τ) (s : Live σ τ) : Prop where
  putting : ∀ put ∈ s.path.putting, put.2.1 ∈ o.path.keys.val
  segments : ∀ c ∉ o.path.keys.val, s.path.segments c = []
  results : ∀ c ∉ o.path.keys.val, s.results c = []
  pending : ∀ p ∉ Finset.range (o.path.keys.val.length + 1), s.console.hub.topic.pending p = []

theorem Confined.start : Confined o (o.start iterators transcribers) :=
  ⟨by simp [Orchestrator.start], fun _ _ => rfl, fun _ _ => rfl, fun _ _ => rfl⟩

theorem Confined.console (h : Confined o s) {f : WiredEvent} {console : Wired}
    (listed : ∀ p event order, f = .hub (.publish p event order) → p ≤ o.path.keys.val.length)
    (moved : wiredStep o.floats o.createdAt o.maxlen s.console f = some console) :
    ∀ p ∉ Finset.range (o.path.keys.val.length + 1), console.hub.topic.pending p = [] := by
  intro p outside
  rcases wiredStep_pending moved with ⟨e, rfl, owes⟩ | ⟨_, same⟩
  · refine owes.owes_none (fun event order named => outside ?_) (h.pending p outside)
    have inside := listed p event order (by rw [named])
    rw [Finset.mem_range]
    omega
  · rw [same]
    exact h.pending p outside

theorem Confined.step (h : Confined o s) (step : o.step s e = some s') : Confined o s' := by
  cases live_cases step with
  | heard e path other moved =>
    obtain ⟨putting, segments⟩ := path_confined h.putting h.segments moved
    exact ⟨putting, segments, h.results, h.pending⟩
  | decoded c turn path moved took =>
    obtain ⟨putting, segments⟩ := path_confined h.putting h.segments moved
    refine ⟨putting, segments, fun d other => ?_, h.pending⟩
    have apart : d ≠ c := by
      rintro rfl
      cases pathStep_cases moved with
      | took d segment queue next => simp [h.segments d other] at next
    simp only [Function.update_of_ne apart]
    exact h.results d other
  | published c order event results next console moved =>
    refine ⟨h.putting, h.segments, fun d other => ?_, h.console ?_ moved⟩
    · have apart : d ≠ c := by
        rintro rfl
        simp [h.results d other] at next
      simp only [Function.update_of_ne apart]
      exact h.results d other
    · intro p event order same
      cases same
      exact List.idxOf_le_length
  | lost c k =>
    refine ⟨h.putting, h.segments, fun d other => ?_, h.pending⟩
    by_cases here : d = c
    · simp [here, h.results c (here ▸ other)]
    · simp [Function.update_of_ne here, h.results d other]
  | restarted c transcriber => exact ⟨h.putting, h.segments, h.results, h.pending⟩
  | consoled f console other moved =>
    exact ⟨h.putting, h.segments, h.results,
      h.console (fun p event order same => absurd same (other p event order)) moved⟩

theorem live_takes (confined : Confined o s) (step : o.step s e = some s') {i : Fin 8}
    (turns : stage o s e = some i) :
    waiting o s' i < waiting o s i ∧
      ∀ j < i, waiting o s' j = waiting o s j := by
  cases live_cases step with
  | heard e path other moved =>
    cases pathStep_cases moved with
    | routed packet ingest idle next =>
      cases turns
      simp [waiting, next]
    | forwarded gaveUp frame routing next =>
      cases turns
      simp [waiting, next]
    | copied gaveUp frame routing next =>
      cases turns
      simp [waiting, next]
    | heard now frame routed idle next =>
      cases turns
      simp [waiting, next, Fin.forall_fin_succ, Path.turn]
    | emitted gaveUp c segment putting next =>
      cases turns
      simp [waiting, next, Fin.forall_fin_succ]
    | emittedCopy gaveUp c segment putting next =>
      cases turns
      simp [waiting, next, Fin.forall_fin_succ]
    | checked now idle =>
      simp only [stage] at turns
      split at turns
      · cases turns
      · rename_i loud
        cases turns
        constructor
        · exact (workerStep_idle o.path.keys s.path.channels now).2 loud
        · simp [waiting, Fin.forall_fin_succ, Path.turn]
    | took c => exact absurd rfl (other c)
    | _ => cases turns
  | decoded c turn path moved took =>
    cases turns
    cases pathStep_cases moved with
    | took c segment queue next =>
      have known : c ∈ o.path.keys.val := by
        by_contra other
        simp [confined.segments c other] at next
      constructor
      · exact total_update_lt (List.mem_toFinset.mpr known) (by simp [next])
      · simp [waiting, Fin.forall_fin_succ]
  | published c order event results next console moved =>
    have known : c ∈ o.path.keys.val := by
      by_contra other
      simp [confined.results c other] at next
    cases turns
    constructor
    · exact total_update_lt (List.mem_toFinset.mpr known) (by simp [next])
    · simp [waiting, Fin.forall_fin_succ]
  | consoled f console other moved =>
    rcases wiredStep_pending moved with ⟨e, rfl, owes⟩ | ⟨calm, same⟩
    · cases owes with
      | put publisher full first rest owed owes =>
        cases turns
        have listed : publisher ∈ Finset.range (o.path.keys.val.length + 1) := by
          by_contra outside
          simp [confined.pending publisher outside] at owed
        constructor
        · have fewer := total_update_lt listed
            (show rest.length < (s.console.hub.topic.pending publisher).length by simp [owed])
          rw [← owes] at fewer
          exact fewer
        · simp [waiting, Fin.forall_fin_succ]
      | published publisher event order => exact absurd rfl (other publisher event order)
      | other unpublished unput =>
        cases e with
        | put publisher full => exact absurd rfl (unput publisher full)
        | _ => cases turns
    · cases f with
      | hub e => exact absurd rfl (calm e)
      | _ => cases turns
  | _ => cases turns

theorem live_rests (quiet : Quiet s e)
    (step : o.step s e = some s') (none : stage o s e = none) :
    waiting o s' = waiting o s := by
  cases live_cases step with
  | heard e path other moved =>
    cases pathStep_cases moved with
    | checked now idle =>
      have silent : (workerStep o.vad o.iterator o.path.keys s.path.channels (.idleCheck now)).2 =
          [] := by
        by_contra loud
        simp [stage, loud] at none
      have still := (workerStep_idle o.path.keys s.path.channels now).1 silent
      simp [waiting, Path.turn, silent, still, idle]
    | tookDump | tookSegmentDump => rfl
    | ignored | arrived => cases quiet.1
    | flushed | restartedRouter | restartedVad => cases quiet.2
    | took c => exact absurd rfl (other c)
    | routed | forwarded | copied | heard | emitted | emittedCopy => cases none
  | decoded | published => cases none
  | lost | restarted => cases quiet.2
  | consoled f console other moved =>
    have same : console.hub.topic.pending = s.console.hub.topic.pending := by
      rcases wiredStep_pending moved with ⟨e, rfl, owes⟩ | ⟨_, same⟩
      · cases owes with
        | put => cases none
        | published publisher event order => exact absurd rfl (other publisher event order)
        | other unpublished unput same => exact same
      · exact same
    simp [waiting, same]

theorem flows : Flows o.step Quiet (Confined o) (stage o) (waiting o) :=
  ⟨fun _ _ _ confined _ step => confined.step step,
    fun _ _ _ _ confined _ step turn => live_takes confined step turn,
    fun _ _ _ _ quiet step none => live_rests quiet step none⟩

theorem Quiet.received (quiet : Quiet s e) (step : o.step s e = some s') :
    s'.path.received = s.path.received := by
  cases live_cases step with
  | heard e path other moved =>
    cases pathStep_cases moved with
    | ignored | arrived => cases quiet.1
    | _ => rfl
  | decoded c turn path moved =>
    cases pathStep_cases moved with
    | took => rfl
  | published | lost | restarted | consoled => rfl

/-- On every channel its STT worker's transcripts are published, in their order, of all the
segments the VADWorker makes of all the frames the router makes of the messages. -/
def Complete (o : Orchestrator σ τ) (iterators : Str → σ) (transcribers : Str → τ)
    (messages : List MQTTMessage) (s : Live σ τ) : Prop :=
  ∃ events, Reads events
      (routed o.repacketizer o.path.keys.val (packetsOf o.path.channels messages)) ∧
    ∀ c, ∃ turns, publishedOn s c =
        (outputs (sttStep o.stt o.transcriber) { transcriber := transcribers c } turns).2 ∧
      turns.map Turn.segment = puts (effectsOn c
        (outputs (workerStep o.vad o.iterator o.path.keys)
          (freshChannels o.iterator iterators) events).2)

theorem Together.complete (h : Together o iterators transcribers s) (confined : Confined o s)
    (done : waiting o s = 0) : Complete o iterators transcribers s.path.received s := by
  have ingest : s.path.ingest = [] := List.length_eq_zero_iff.mp (congrFun done 0)
  have routing : s.path.routing = [] := List.length_eq_zero_iff.mp (congrFun done 1)
  have routed : s.path.routed = [] := List.length_eq_zero_iff.mp (congrFun done 2)
  have putting : s.path.putting = [] := List.length_eq_zero_iff.mp (congrFun done 4)
  have everywhere {α : Type} {queues : Str → List α}
      (inside : total o.path.keys.val.toFinset queues = 0)
      (outside : ∀ c ∉ o.path.keys.val, queues c = []) (c : Str) : queues c = [] := by
    by_cases known : c ∈ o.path.keys.val
    · exact total_eq_zero.mp inside c (List.mem_toFinset.mpr known)
    · exact outside c known
  have segments := everywhere (congrFun done 5) confined.segments
  have results := everywhere (congrFun done 6) confined.results
  obtain ⟨packets, came, ran⟩ := h.path.router
  obtain ⟨events, effects, reads, worked, all⟩ := h.path.worker
  rw [ingest, List.append_nil] at came
  rw [came, routed, routing, owed_nil, List.append_nil, List.append_nil] at ran
  refine ⟨events, ?_, fun c => ?_⟩
  · rw [ChannelIsolation.routed, ran]
    exact reads
  · obtain ⟨turns, took, transcribed⟩ := h.worked c
    refine ⟨turns, ?_, ?_⟩
    · rw [transcribed, transcripts, results, List.append_nil]
    · have whole := all c
      rw [spoken, segments, putting, owed_nil, segmentsOn_nil, List.append_nil, List.append_nil]
        at whole
      rw [took, whole, worked]

variable {states : ℕ → Live σ τ} {events : ℕ → LiveEvent σ τ}

end Stages

end EdgeVoice.PipelineProgress
