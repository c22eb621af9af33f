import EdgeVoice.PartialIsolation
import EdgeVoice.TranscriptReceiver

/-! Which latency is logged with a transcript. In thread mode the callback of an STTWorker reads
it back through the orchestrator's dictionary, which a restart may have repointed meanwhile; in
process mode the child reads its own worker and sends the value along. Workers are numbered as
they are built, and one that was replaced may still be decoding. -/

namespace EdgeVoice.LatencyPairing
open PythonText Models StepSystem SttWorker TranscriptReceiver PartialIsolation

/-- Where a worker's thread stands in `_on_transcript`; `found` has looked the channel up in
`self._stt` and goes on to read the latency. -/
inductive Callback
  | idle
  | called (turn : Turn) (event : TranscriptEvent)
  | found (turn : Turn) (event : TranscriptEvent) (holder : ℕ)
deriving DecidableEq

/-- A call of `_publish_transcript`, with the turn whose decode made the event. -/
structure Logged where
  turn : Turn
  event : TranscriptEvent
  latencyS : Option ℚ
deriving DecidableEq

/-- One STTWorker, in its thread or its child, and the results its child has sent. -/
structure Worker (τ : Type) where
  channelId : Str
  state : SttState τ
  callback : Callback := .idle
  results : List (Turn × SttResult) := []

/-- `stt` is `self._stt`. -/
structure Pool (τ : Type) where
  built : ℕ := 0
  workers : ℕ → Option (Worker τ) := fun _ => none
  stt : Str → Option ℕ := fun _ => none
  published : List Logged := []

/-- `build` is the first build and every restart, `decode` a segment's handling up to the
callback, `send` the child's callback and `receive` the parent's receiver. -/
inductive PoolEvent (τ : Type)
  | build (channelId : Str) (model : τ)
  | decode (worker : ℕ) (turn : Turn)
  | onTranscript (worker : ℕ)
  | readLatency (worker : ℕ)
  | send (worker : ℕ) (delivered : Bool)
  | receive (worker : ℕ)

variable {τ : Type} (cfg : STTWorkerConfig) (tr : Transcriber τ) (useProcesses : Bool)

namespace Pool

def put (n : ℕ) (w : Worker τ) (pool : Pool τ) : Pool τ :=
  { pool with workers := Function.update pool.workers n (some w) }

def publish (turn : Turn) (event : TranscriptEvent) (latencyS : Option ℚ) (pool : Pool τ) :
    Pool τ :=
  { pool with published := pool.published ++ [⟨turn, event, latencyS⟩] }

end Pool

/-- What handling a turn leaves of a worker; a turn calls back at most once. -/
def Worker.decode (turn : Turn) (w : Worker τ) : Worker τ :=
  { w with
    state := (sttStep cfg tr w.state turn).1
    callback := ((sttStep cfg tr w.state turn).2.head?.map (Callback.called turn)).getD .idle }

/-- The child's callback: its own worker's latency, with a final. -/
def Worker.send (turn : Turn) (event : TranscriptEvent) (delivered : Bool) (w : Worker τ) :
    Worker τ :=
  { w with
    callback := .idle
    results := if delivered then
        w.results ++ [(turn, ⟨event, if event.isFinal then w.state.lastLatencyS else none⟩)]
      else w.results }

def poolStep (pool : Pool τ) : PoolEvent τ → Option (Pool τ)
  | .build channelId model =>
    some { pool with
      built := pool.built + 1
      workers := Function.update pool.workers pool.built
        (some { channelId, state := { transcriber := model } })
      stt := Function.update pool.stt channelId (some pool.built) }
  | .decode n turn =>
    (pool.workers n).bind fun w =>
      if w.callback = .idle then some (pool.put n (w.decode cfg tr turn)) else none
  | .onTranscript n =>
    (pool.workers n).bind fun w =>
      match w.callback with
      | .called turn event =>
        if useProcesses then none
        else if event.isFinal then
          (pool.stt w.channelId).map fun holder =>
            pool.put n { w with callback := .found turn event holder }
        else some ((pool.put n { w with callback := .idle }).publish turn event none)
      | _ => none
  | .readLatency n =>
    (pool.workers n).bind fun w =>
      match w.callback with
      | .found turn event holder =>
        (pool.workers holder).map fun held =>
          (pool.put n { w with callback := .idle }).publish turn event held.state.lastLatencyS
      | _ => none
  | .send n delivered =>
    (pool.workers n).bind fun w =>
      match w.callback with
      | .called turn event =>
        if useProcesses then some (pool.put n (w.send turn event delivered)) else none
      | _ => none
  | .receive n =>
    (pool.workers n).bind fun w =>
      match w.results with
      | [] => none
      | (turn, result) :: rest =>
        some ((pool.put n { w with results := rest }).publish turn result.event
          result.sttLatencyS)

/-- An event of the turn's segment, with the duration of the turn's decode if it is final. -/
structure Paired (x : Logged) : Prop where
  segment : x.event.segmentId = x.turn.segment.segmentId
  final : x.event.isFinal = !x.turn.segment.isPartial
  latency : x.latencyS =
    if x.event.isFinal then some (x.turn.finishedAt - x.turn.startedAt) else none

/-- A final is about to be handed over. -/
def Callback.isFinal : Callback → Bool
  | .called _ event => event.isFinal
  | _ => false

/-- When a final calls back, the dictionary still holds the worker that calls. -/
def Held (pool : Pool τ) : PoolEvent τ → Prop
  | .onTranscript n => ∀ w ∈ pool.workers n, w.callback.isFinal = true →
    pool.stt w.channelId = some n
  | _ => True

instance : (pool : Pool τ) → (e : PoolEvent τ) → Decidable (Held pool e)
  | pool, .onTranscript n =>
    inferInstanceAs (Decidable (∀ w ∈ pool.workers n, w.callback.isFinal = true →
      pool.stt w.channelId = some n))
  | _, .build _ _ | _, .decode _ _ | _, .readLatency _ | _, .send _ _ | _, .receive _ =>
    isTrue trivial

section Pairing

variable {cfg tr useProcesses} {pool pool' : Pool τ} {e : PoolEvent τ}

/-- A final's event leaves its worker with the duration of the decode that made it. -/
theorem sttStep_latency {state : SttState τ} {turn : Turn} {event : TranscriptEvent}
    (made : (sttStep cfg tr state turn).2.head? = some event) :
    event.segmentId = turn.segment.segmentId ∧ event.isFinal = !turn.segment.isPartial ∧
      (event.isFinal = true →
        (sttStep cfg tr state turn).1.lastLatencyS = some (turn.finishedAt - turn.startedAt)) := by
  obtain ⟨text, events⟩ := sttStep_events cfg tr state turn
  rw [events] at made
  cases text with
  | none => cases made
  | some text =>
    obtain rfl := Option.some.inj made
    refine ⟨rfl, rfl, fun final => ?_⟩
    have whole : turn.segment.isPartial = false := by simpa using final
    unfold sttStep handleSegment at events ⊢
    rw [if_neg (by simp [whole])] at events ⊢
    cases decoded : (transcribe cfg tr state.transcriber turn.segment.audio).1 with
    | none => simp [decoded] at events
    | some words => simp [decoded]

/-- What a worker's callback is about to log. -/
def Callback.Right (n : ℕ) (state : SttState τ) : Callback → Prop
  | .idle => True
  | .called turn event => event.segmentId = turn.segment.segmentId ∧
    event.isFinal = (!turn.segment.isPartial) ∧
    (event.isFinal = true → state.lastLatencyS = some (turn.finishedAt - turn.startedAt))
  | .found turn event holder => event.segmentId = turn.segment.segmentId ∧
    event.isFinal = (!turn.segment.isPartial) ∧ event.isFinal = true ∧ holder = n ∧
    state.lastLatencyS = some (turn.finishedAt - turn.startedAt)

structure Sound (pool : Pool τ) : Prop where
  unbuilt : ∀ n, pool.built ≤ n → pool.workers n = none
  callback : ∀ n w, pool.workers n = some w → w.callback.Right n w.state
  results : ∀ n w, pool.workers n = some w →
    ∀ r ∈ w.results, Paired ⟨r.1, r.2.event, r.2.sttLatencyS⟩
  published : ∀ x ∈ pool.published, Paired x

theorem Sound.start : Sound ({} : Pool τ) := by
  refine ⟨fun _ _ => rfl, ?_, ?_, ?_⟩ <;> simp

/-- A step of one worker, which may publish. -/
theorem Sound.put (sound : Sound pool) {n : ℕ} {w v : Worker τ} (old : pool.workers n = some w)
    (callback : v.callback.Right n v.state)
    (results : ∀ r ∈ v.results, Paired ⟨r.1, r.2.event, r.2.sttLatencyS⟩) :
    Sound (pool.put n v) := by
  refine ⟨fun m new => ?_, fun m u there => ?_, fun m u there => ?_, sound.published⟩
  · have other : m ≠ n := by
      rintro rfl
      rw [sound.unbuilt m new] at old
      cases old
    simpa only [Pool.put, Function.update_of_ne other] using sound.unbuilt m new
  · by_cases same : m = n
    · subst same
      simp only [Pool.put, Function.update_self, Option.some.injEq] at there
      exact there ▸ callback
    · simp only [Pool.put, Function.update_of_ne same] at there
      exact sound.callback m u there
  · by_cases same : m = n
    · subst same
      simp only [Pool.put, Function.update_self, Option.some.injEq] at there
      exact there ▸ results
    · simp only [Pool.put, Function.update_of_ne same] at there
      exact sound.results m u there

theorem Sound.publish (sound : Sound pool) {turn : Turn} {event : TranscriptEvent}
    {latencyS : Option ℚ} (paired : Paired ⟨turn, event, latencyS⟩) :
    Sound (pool.publish turn event latencyS) := by
  refine ⟨sound.unbuilt, sound.callback, sound.results, fun x member => ?_⟩
  rcases List.mem_append.mp member with old | new
  · exact sound.published x old
  · exact List.mem_singleton.mp new ▸ paired

theorem Sound.build (sound : Sound pool) (channelId : Str) (model : τ) :
    Sound { pool with
      built := pool.built + 1
      workers := Function.update pool.workers pool.built
        (some { channelId, state := { transcriber := model } })
      stt := Function.update pool.stt channelId (some pool.built) } := by
  refine ⟨fun n new => ?_, fun n w there => ?_, fun n w there => ?_, sound.published⟩
  · have other : n ≠ pool.built := by
      simp only at new
      omega
    simp only [Function.update_of_ne other]
    refine sound.unbuilt n ?_
    simp only at new
    omega
  · by_cases same : n = pool.built
    · subst same
      simp only [Function.update_self, Option.some.injEq] at there
      subst there
      trivial
    · simp only [Function.update_of_ne same] at there
      exact sound.callback n w there
  · by_cases same : n = pool.built
    · subst same
      simp only [Function.update_self, Option.some.injEq] at there
      subst there
      simp
    · simp only [Function.update_of_ne same] at there
      exact sound.results n w there

theorem Sound.decode (sound : Sound pool) {n : ℕ} {turn : Turn}
    (step : poolStep cfg tr useProcesses pool (.decode n turn) = some pool') : Sound pool' := by
  simp only [poolStep, Option.bind_eq_some_iff, Option.ite_none_right_eq_some,
    Option.some.injEq] at step
  obtain ⟨w, there, _, rfl⟩ := step
  refine sound.put there ?_ (sound.results n w there)
  cases made : (sttStep cfg tr w.state turn).2.head? with
  | none =>
    simp only [Worker.decode, made]
    trivial
  | some event =>
    simp only [Worker.decode, made]
    exact sttStep_latency made

/-- A final looks its worker up, and anything else is published as it is. -/
theorem Sound.onTranscript (sound : Sound pool) {n : ℕ}
    (held : useProcesses = true ∨ Held pool (.onTranscript n))
    (step : poolStep cfg tr useProcesses pool (.onTranscript n) = some pool') : Sound pool' := by
  simp only [poolStep, Option.bind_eq_some_iff] at step
  obtain ⟨w, there, step⟩ := step
  have right := sound.callback n w there
  cases at_ : w.callback with
  | idle => simp [at_] at step
  | found turn event holder => simp [at_] at step
  | called turn event =>
    rw [at_] at right
    obtain ⟨segment, kind, latency⟩ := right
    simp only [at_, Option.ite_none_left_eq_some] at step
    obtain ⟨thread, step⟩ := step
    have own : event.isFinal = true → pool.stt w.channelId = some n := fun final =>
      held.resolve_left thread w there (by rw [at_]; exact final)
    by_cases final : event.isFinal = true
    · simp only [final, if_true, Option.map_eq_some_iff] at step
      obtain ⟨holder, looked, rfl⟩ := step
      rw [own final] at looked
      obtain rfl := Option.some.inj looked
      exact sound.put there ⟨segment, kind, final, rfl, latency final⟩ (sound.results n w there)
    · simp only [if_neg final, Option.some.injEq] at step
      subst step
      exact (sound.put (v := { w with callback := .idle }) there trivial
        (sound.results n w there)).publish ⟨segment, kind, by rw [if_neg final]⟩

theorem Sound.readLatency (sound : Sound pool) {n : ℕ}
    (step : poolStep cfg tr useProcesses pool (.readLatency n) = some pool') : Sound pool' := by
  simp only [poolStep, Option.bind_eq_some_iff] at step
  obtain ⟨w, there, step⟩ := step
  have right := sound.callback n w there
  cases at_ : w.callback with
  | idle => simp [at_] at step
  | called turn event => simp [at_] at step
  | found turn event holder =>
    rw [at_] at right
    obtain ⟨segment, kind, final, rfl, latency⟩ := right
    simp only [at_, Option.map_eq_some_iff] at step
    obtain ⟨held, there', rfl⟩ := step
    rw [there] at there'
    obtain rfl := Option.some.inj there'
    exact (sound.put (v := { w with callback := .idle }) there trivial
      (sound.results _ w there)).publish ⟨segment, kind, by rw [if_pos final]; exact latency⟩

/-- The child pairs the final with its own latency before it sends it. -/
theorem Sound.send (sound : Sound pool) {n : ℕ} {delivered : Bool}
    (step : poolStep cfg tr useProcesses pool (.send n delivered) = some pool') : Sound pool' := by
  simp only [poolStep, Option.bind_eq_some_iff] at step
  obtain ⟨w, there, step⟩ := step
  have right := sound.callback n w there
  cases at_ : w.callback with
  | idle => simp [at_] at step
  | found turn event holder => simp [at_] at step
  | called turn event =>
    rw [at_] at right
    obtain ⟨segment, kind, latency⟩ := right
    simp only [at_, Option.ite_none_right_eq_some, Option.some.injEq] at step
    obtain ⟨_, rfl⟩ := step
    refine sound.put there trivial fun r member => ?_
    cases delivered with
    | false => exact sound.results n w there r member
    | true =>
      rcases List.mem_append.mp member with old | new
      · exact sound.results n w there r old
      · rw [List.mem_singleton.mp new]
        refine ⟨segment, kind, ?_⟩
        by_cases final : event.isFinal = true
        · simp only [if_pos final, latency final]
        · simp only [if_neg final]

theorem Sound.receive (sound : Sound pool) {n : ℕ}
    (step : poolStep cfg tr useProcesses pool (.receive n) = some pool') : Sound pool' := by
  simp only [poolStep, Option.bind_eq_some_iff] at step
  obtain ⟨w, there, step⟩ := step
  have results := sound.results n w there
  cases sent : w.results with
  | nil => simp [sent] at step
  | cons r rest =>
    rw [sent] at results
    simp only [sent, Option.some.injEq] at step
    subst step
    exact (sound.put (v := { w with results := rest }) there (sound.callback n w there)
      fun q member => results q (List.mem_cons_of_mem _ member)).publish
      (results r List.mem_cons_self)

theorem Sound.step (sound : Sound pool) (held : useProcesses = true ∨ Held pool e)
    (step : poolStep cfg tr useProcesses pool e = some pool') : Sound pool' := by
  cases e with
  | build channelId model =>
    cases step
    exact sound.build channelId model
  | decode n turn => exact sound.decode step
  | onTranscript n => exact sound.onTranscript held step
  | readLatency n => exact sound.readLatency step
  | send n delivered => exact sound.send step
  | receive n => exact sound.receive step

/-- Every call of `_publish_transcript` gets its own decode's duration in process mode, and in
thread mode as long as each final calls back from the worker the dictionary holds. -/
theorem latency_is_own {es : List (PoolEvent τ)}
    (held : Along (poolStep cfg tr useProcesses) (fun pool e => useProcesses = true ∨ Held pool e)
      {} es)
    (reached : run (poolStep cfg tr useProcesses) {} es = some pool) :
    ∀ x ∈ pool.published, Paired x :=
  (run_invariant_along (poolStep cfg tr useProcesses) Sound.start
    (fun _ _ _ sound held step => sound.step held step) held reached).published

end Pairing

section Replaced

/-- A final whose decode takes `duration` seconds. -/
def decodeFor (segmentId : Str) (duration : ℚ) : Turn :=
  { segment := ⟨['r'], 0, 1, [1, 0], segmentId, false⟩, finishedAt := duration }

theorem restarted_latency_is_own :
    ∃ pool, run (poolStep {} finalsOnly false) {} [.build ['r'] (),
        .decode 0 (decodeFor ['a'] 5), .onTranscript 0, .build ['r'] (), .readLatency 0,
        .decode 1 (decodeFor ['b'] 1), .onTranscript 1, .readLatency 1] = some pool ∧
      (∀ x ∈ pool.published, Paired x) ∧
      pool.published.map Logged.latencyS = [some 5, some 1] := by
  have ends : ((run (poolStep {} finalsOnly false) {} [.build ['r'] (),
      .decode 0 (decodeFor ['a'] 5), .onTranscript 0, .build ['r'] (), .readLatency 0,
      .decode 1 (decodeFor ['b'] 1), .onTranscript 1, .readLatency 1]).map fun pool =>
        pool.published.map Logged.latencyS) = some [some 5, some 1] := by
    decide +kernel
  obtain ⟨pool, reached, latencies⟩ := Option.map_eq_some_iff.mp ends
  exact ⟨pool, reached, latency_is_own (by decide +kernel) reached, latencies⟩

theorem late_final_gets_replacement_latency :
    ∃ pool, run (poolStep {} finalsOnly false) {} [.build ['r'] (),
        .decode 0 (decodeFor ['a'] 5), .build ['r'] (), .decode 1 (decodeFor ['b'] 1),
        .onTranscript 0, .readLatency 0] = some pool ∧
      pool.published.map (fun x => (x.turn, x.event.isFinal, x.latencyS)) =
        [(decodeFor ['a'] 5, true, some 1)] ∧
      ¬∀ x ∈ pool.published, Paired x := by
  have ends : ((run (poolStep {} finalsOnly false) {} [.build ['r'] (),
      .decode 0 (decodeFor ['a'] 5), .build ['r'] (), .decode 1 (decodeFor ['b'] 1),
      .onTranscript 0, .readLatency 0]).map fun pool =>
        pool.published.map fun x => (x.turn, x.event.isFinal, x.latencyS)) =
      some [(decodeFor ['a'] 5, true, some 1)] := by
    decide +kernel
  obtain ⟨pool, reached, logged⟩ := Option.map_eq_some_iff.mp ends
  refine ⟨pool, reached, logged, fun all => ?_⟩
  obtain ⟨x, only, facts⟩ := List.map_eq_singleton_iff.mp logged
  simp only [Prod.mk.injEq] at facts
  obtain ⟨turn, final, latency⟩ := facts
  have own := (all x (by simp [only])).latency
  rw [turn, final, latency] at own
  norm_num [decodeFor] at own

end Replaced

end EdgeVoice.LatencyPairing
