import EdgeVoice.ChannelIsolation
import EdgeVoice.ChunkTrace

/-! The RMS gate against the worker without it. Here the iterator is silero's own, over an
arbitrary speech model with a state: the gate withholds chunks from both, so the two runs
stay alike only if no withheld chunk would have changed what the model says later. -/

namespace EdgeVoice.RmsGate
open PythonText Models VadWorker VadTrack ChunkTrace ChannelIsolation StepSystem

structure SpeechModel (μ : Type) where
  score : μ → List ℚ → ℚ
  next : μ → List ℚ → μ
  reset : μ → μ

/-- VADIterator over a score-capturing model. No `temp_end` is a zero there. -/
structure Silero (μ : Type) where
  model : μ
  triggered : Bool := false
  tempEnd : Option ℕ := none
  currentSample : ℕ := 0
  lastScore : ℚ := 0

variable {μ : Type} (cfg : VADWorkerConfig) (m : SpeechModel μ)

def minSilenceSamples : ℚ := cfg.sampleRate * cfg.minSilenceDurationMs / 1000

/-- The chunk counted and scored. -/
def Silero.hear (s : Silero μ) (chunk : List ℚ) : Silero μ :=
  { s with
    model := m.next s.model chunk
    tempEnd := if cfg.threshold ≤ m.score s.model chunk then none else s.tempEnd
    currentSample := s.currentSample + chunk.length
    lastScore := m.score s.model chunk }

/-- `VADIterator.__call__`. -/
def Silero.call (s : Silero μ) (chunk : List ℚ) : VADReply × Silero μ :=
  let score := m.score s.model chunk
  let heard := s.hear cfg m chunk
  if cfg.threshold ≤ score ∧ s.triggered = false then
    (.started, { heard with triggered := true })
  else if score < cfg.threshold - 3 / 20 ∧ s.triggered = true then
    let silentFrom := heard.tempEnd.getD heard.currentSample
    if (heard.currentSample : ℚ) - silentFrom < minSilenceSamples cfg then
      (.nothing, { heard with tempEnd := some silentFrom })
    else (.ended, { heard with tempEnd := none, triggered := false })
  else (.nothing, heard)

def sileroIterator : VADIterator (Silero μ) where
  triggered := Silero.triggered
  lastScore := Silero.lastScore
  call := Silero.call cfg m
  resetStates := fun s =>
    { s with model := m.reset s.model, triggered := false, tempEnd := none, currentSample := 0 }
  call_protocol := by
    intro s chunk
    unfold Silero.call
    by_cases speech : cfg.threshold ≤ m.score s.model chunk ∧ s.triggered = false
    · simp [speech]
    by_cases silence : m.score s.model chunk < cfg.threshold - 3 / 20 ∧ s.triggered = true
    · simp only [if_neg speech, if_pos silence]
      generalize ((s.hear cfg m chunk).tempEnd.getD (s.hear cfg m chunk).currentSample) = t
      by_cases brief :
          ((s.hear cfg m chunk).currentSample : ℚ) - t < minSilenceSamples cfg
      · rw [if_pos brief]
        rfl
      · simp [brief, silence]
    · simp [speech, silence, Silero.hear]
  reset_protocol _ := rfl

/-- The same worker without the gate. -/
def gateOff : VADWorkerConfig := { cfg with rmsGateEnabled := false }

/-- No chunk that the gate takes for silence is scored as speech. -/
def Quiet : Prop :=
  ∀ s chunk, rmsBelow chunk cfg.silenceRmsFloor = true → m.score s chunk < cfg.threshold

/-- What the iterator and the cut check read of a score. -/
structure Verdict where
  speech : Bool
  silence : Bool
  score : Option ℚ
deriving DecidableEq

def verdict (score : ℚ) : Verdict where
  speech := cfg.threshold ≤ score
  silence := score < cfg.threshold - 3 / 20
  score := if cfg.segmentLimitsEnabled && cfg.softCutEnabled then some score else none

/-- The model on its own, given chunks and resets. -/
def modelStep (s : μ) : Option (List ℚ) → μ × List Verdict
  | some chunk => (m.next s chunk, [verdict cfg (m.score s chunk)])
  | none => (m.reset s, [])

/-- The gate withholds this chunk of the packet. -/
def Skips (packet : AudioPacket) (state : ChannelState (Silero μ)) (chunk : List ℚ) : Prop :=
  pcmToFloat packet.samples = some chunk ∧
    (cfg.rmsGateEnabled && !state.triggered && rmsBelow chunk cfg.silenceRmsFloor) = true

/-- A chunk that the gate withholds would not have changed what the model says later. -/
def Harmless (keys : ChannelKeys) (channels : Channels (Silero μ)) : VadEvent → Prop
  | .packet packet _ => packet.channelId ∈ keys.val →
    ∀ chunk, Skips cfg packet (channels packet.channelId) chunk →
      Indistinguishable (modelStep cfg m)
        (m.next (channels packet.channelId).vadIter.model chunk)
        (channels packet.channelId).vadIter.model
  | _ => True

/-- How many samples ago the present silence began, if one did. -/
def Silero.silence (s : Silero μ) : Option ℚ :=
  s.tempEnd.map fun t : ℕ => (s.currentSample : ℚ) - t

/-- The iterators of the two runs. The ungated one counted the withheld samples too. -/
structure Matched (s s' : Silero μ) : Prop where
  model : Indistinguishable (modelStep cfg m) s.model s'.model
  triggered : s.triggered = s'.triggered
  silence : s.silence = s'.silence
  idle : s.triggered = false → s.tempEnd = none

/-- The channel states of the two runs: all but the iterators is equal. -/
structure Alike (s s' : ChannelState (Silero μ)) : Prop where
  iterator : Matched cfg m s.vadIter s'.vadIter
  rest : s' = { s with vadIter := s'.vadIter }

theorem Silero.silence_getD (s : Silero μ) :
    (s.currentSample : ℚ) - s.tempEnd.getD s.currentSample = s.silence.getD 0 := by
  unfold Silero.silence
  cases s.tempEnd with
  | none => simp
  | some t => simp

/-- A silence lasts on while chunks come in that are not speech. -/
theorem Silero.hear_silence (s : Silero μ) (chunk : List ℚ) :
    (s.hear cfg m chunk).silence =
      if cfg.threshold ≤ m.score s.model chunk then none
      else s.silence.map (· + (chunk.length : ℚ)) := by
  unfold Silero.silence Silero.hear
  split
  · rfl
  · cases s.tempEnd with
    | none => rfl
    | some t =>
      simp only [Option.map_some, Option.some.injEq]
      push_cast
      ring

theorem Silero.call_lastScore (s : Silero μ) (chunk : List ℚ) :
    (s.call cfg m chunk).2.lastScore = m.score s.model chunk := by
  unfold Silero.call
  simp only
  split
  · rfl
  split
  · split
    · rfl
    · rfl
  · rfl

variable {cfg m}

/-- Equal verdicts, as the code reads them. -/
theorem verdict_eq {score score' : ℚ} (same : verdict cfg score = verdict cfg score') :
    (cfg.threshold ≤ score ↔ cfg.threshold ≤ score') ∧
      (score < cfg.threshold - 3 / 20 ↔ score' < cfg.threshold - 3 / 20) ∧
      (cfg.segmentLimitsEnabled = true → cfg.softCutEnabled = true → score = score') := by
  simp only [verdict, Verdict.mk.injEq, decide_eq_decide] at same
  refine ⟨same.1, same.2.1, fun limited enabled => ?_⟩
  simpa [limited, enabled] using same.2.2

section Iterators

variable {s s' : Silero μ} (h : Matched cfg m s s') (chunk : List ℚ)
include h

theorem Matched.verdicts :
    verdict cfg (m.score s.model chunk) = verdict cfg (m.score s'.model chunk) ∧
      Indistinguishable (modelStep cfg m) (m.next s.model chunk) (m.next s'.model chunk) := by
  obtain ⟨same, onward⟩ := h.model.next (some chunk)
  exact ⟨by simpa [modelStep] using same, onward⟩

/-- A chunk that both iterators hear leaves the same silence behind. -/
theorem Matched.hear : Matched cfg m (s.hear cfg m chunk) (s'.hear cfg m chunk) := by
  obtain ⟨same, onward⟩ := h.verdicts chunk
  obtain ⟨speech, _, _⟩ := verdict_eq same
  refine ⟨onward, h.triggered, ?_, fun quiet => by simp [Silero.hear, h.idle quiet]⟩
  rw [Silero.hear_silence, Silero.hear_silence, h.silence]
  exact if_congr speech rfl rfl

/-- Matched iterators answer alike and stay matched. -/
theorem Matched.call :
    (s.call cfg m chunk).1 = (s'.call cfg m chunk).1 ∧
      Matched cfg m (s.call cfg m chunk).2 (s'.call cfg m chunk).2 ∧
      (cfg.segmentLimitsEnabled = true → cfg.softCutEnabled = true →
        (s.call cfg m chunk).2.lastScore = (s'.call cfg m chunk).2.lastScore) := by
  obtain ⟨same, _⟩ := h.verdicts chunk
  obtain ⟨speech, silence, score⟩ := verdict_eq same
  have heard := h.hear chunk
  have last (limited : cfg.segmentLimitsEnabled = true) (enabled : cfg.softCutEnabled = true) :
      (s.call cfg m chunk).2.lastScore = (s'.call cfg m chunk).2.lastScore := by
    rw [s.call_lastScore, s'.call_lastScore]
    exact score limited enabled
  suffices answers : (s.call cfg m chunk).1 = (s'.call cfg m chunk).1 ∧
      Matched cfg m (s.call cfg m chunk).2 (s'.call cfg m chunk).2 from
    ⟨answers.1, answers.2, last⟩
  unfold Silero.call
  simp only [← h.triggered, ← speech, ← silence]
  by_cases start : cfg.threshold ≤ m.score s.model chunk ∧ s.triggered = false
  · rw [if_pos start, if_pos start]
    exact ⟨rfl, heard.model, rfl, heard.silence, by simp⟩
  rw [if_neg start, if_neg start]
  by_cases ending : m.score s.model chunk < cfg.threshold - 3 / 20 ∧ s.triggered = true
  · rw [if_pos ending, if_pos ending]
    have lasting := congrArg (Option.getD · 0) heard.silence
    simp only [← Silero.silence_getD] at lasting
    simp only [lasting]
    split
    · exact ⟨rfl, heard.model, heard.triggered, by simpa [Silero.silence] using lasting,
        by simp [Silero.hear, ending]⟩
    · exact ⟨rfl, heard.model, rfl, rfl, fun _ => rfl⟩
  · rw [if_neg ending, if_neg ending]
    exact ⟨rfl, heard⟩

/-- A chunk withheld from one iterator only, that is not speech and changes no verdict. -/
theorem Matched.skip (quiet : Quiet cfg m) (idle : s.triggered = false)
    (below : rmsBelow chunk cfg.silenceRmsFloor = true)
    (harmless : Indistinguishable (modelStep cfg m) (m.next s.model chunk) s.model) :
    (s'.call cfg m chunk).1 = .nothing ∧ Matched cfg m s (s'.call cfg m chunk).2 := by
  have idle' : s'.triggered = false := h.triggered ▸ idle
  have unheard : ¬cfg.threshold ≤ m.score s'.model chunk :=
    not_le.mpr (quiet s'.model chunk below)
  have call : s'.call cfg m chunk = (.nothing, s'.hear cfg m chunk) := by
    simp [Silero.call, unheard, idle']
  have never : s.silence = none := by simp [Silero.silence, h.idle idle]
  rw [call]
  refine ⟨rfl, harmless.symm.trans (h.verdicts chunk).2, h.triggered, ?_, h.idle⟩
  rw [Silero.hear_silence, ← h.silence, never]
  simp

theorem Matched.reset :
    Matched cfg m ((sileroIterator cfg m).resetStates s) ((sileroIterator cfg m).resetStates s') :=
  ⟨(h.model.next none).2, rfl, rfl, fun _ => rfl⟩

end Iterators

/-- What a method that only hands the iterator on makes of two channels that are alike. -/
theorem Matched.handedOn {f : ChannelState (Silero μ) → ChannelState (Silero μ) × List Effect}
    {x : ChannelState (Silero μ)} {v : Silero μ} (matched : Matched cfg m x.vadIter v)
    (own : f x = refitted x.vadIter x.lastPacketAt (f x))
    (other : f { x with vadIter := v } = refitted v x.lastPacketAt (f x)) :
    (f x).2 = (f { x with vadIter := v }).2 ∧
      Alike cfg m (f x).1 (f { x with vadIter := v }).1 := by
  have kept : (f x).1.vadIter = x.vadIter := congrArg (fun r => r.1.vadIter) own
  have arrived : (f x).1.lastPacketAt = x.lastPacketAt :=
    congrArg (fun r => r.1.lastPacketAt) own
  rw [other]
  exact ⟨rfl, by rw [kept]; exact matched, by simp [refitted, ← arrived]⟩

section Methods

variable (packet : AudioPacket) {x : ChannelState (Silero μ)} {v : Silero μ}

theorem endSegment_alike (matched : Matched cfg m x.vadIter v) :
    (endSegment packet x).2 = (endSegment packet { x with vadIter := v }).2 ∧
      Alike cfg m (endSegment packet x).1 (endSegment packet { x with vadIter := v }).1 := by
  have refits (u : Silero μ) : endSegment packet { x with vadIter := u } =
      refitted u x.lastPacketAt (endSegment packet x) := by
    have closed := finalizeSegment_refitted packet.channelId { x with triggered := false } u
      x.lastPacketAt packet.timestamp
    simp only at closed
    simp only [endSegment, closed]
    rfl
  exact matched.handedOn (refits x.vadIter) (refits v)

theorem continueSegment_alike (matched : Matched cfg m x.vadIter v)
    (score : cfg.segmentLimitsEnabled = true → cfg.softCutEnabled = true →
      x.vadIter.lastScore = v.lastScore) :
    (continueSegment cfg (sileroIterator cfg m) packet x).2 =
        (continueSegment cfg (sileroIterator cfg m) packet { x with vadIter := v }).2 ∧
      Alike cfg m (continueSegment cfg (sileroIterator cfg m) packet x).1
        (continueSegment cfg (sileroIterator cfg m) packet { x with vadIter := v }).1 :=
  matched.handedOn
    (continueSegment_refitted cfg (sileroIterator cfg m) x x.vadIter x.lastPacketAt packet
      fun _ _ => rfl)
    (continueSegment_refitted cfg (sileroIterator cfg m) x v x.lastPacketAt packet
      fun limited enabled => (score limited enabled).symm)

end Methods

section Channels

variable {s s' : ChannelState (Silero μ)} (h : Alike cfg m s s')
include h

/-- A packet leaves the channels alike, if the gate withholds nothing that matters. -/
theorem handlePacket_alike (packet : AudioPacket) (now : ℚ) (quiet : Quiet cfg m)
    (agrees : s.triggered = s.vadIter.triggered)
    (harmless : ∀ chunk, Skips cfg packet s chunk →
      Indistinguishable (modelStep cfg m) (m.next s.vadIter.model chunk) s.vadIter.model) :
    (handlePacket cfg (sileroIterator cfg m) packet now s).2 =
        (handlePacket (gateOff cfg) (sileroIterator cfg m) packet now s').2 ∧
      Alike cfg m (handlePacket cfg (sileroIterator cfg m) packet now s).1
        (handlePacket (gateOff cfg) (sileroIterator cfg m) packet now s').1 := by
  have rest := h.rest
  have iterators := h.iterator
  generalize s'.vadIter = v at rest iterators
  subst rest
  unfold handlePacket
  cases decoded : pcmToFloat packet.samples with
  | none => exact ⟨rfl, iterators, rfl⟩
  | some chunk =>
    simp only [gateOff, Bool.false_and, Bool.false_eq_true, if_false]
    by_cases gated : (cfg.rmsGateEnabled && !s.triggered &&
        rmsBelow chunk cfg.silenceRmsFloor) = true
    · rw [if_pos gated]
      have off : s.triggered = false := by simp_all
      have below : rmsBelow chunk cfg.silenceRmsFloor = true := by simp_all
      obtain ⟨reply, matched⟩ := iterators.skip chunk quiet (agrees ▸ off) below
        (harmless chunk ⟨decoded, gated⟩)
      have reply' : ((sileroIterator cfg m).call v chunk).1 = .nothing := reply
      simp only [reply', off, Bool.false_eq_true, if_false]
      exact ⟨trivial, matched, rfl⟩
    rw [if_neg gated]
    obtain ⟨replies, matched, score⟩ := iterators.call chunk
    have called (x : Silero μ) : (sileroIterator cfg m).call x chunk = x.call cfg m chunk := rfl
    simp only [called, ← replies]
    generalize s.vadIter.call cfg m chunk = answer at matched score ⊢
    generalize v.call cfg m chunk = answer' at matched score ⊢
    obtain ⟨reply, heard⟩ := answer
    obtain ⟨_, heard'⟩ := answer'
    by_cases speaking : s.triggered = true
    · simp only [if_pos speaking]
      cases reply with
      | raised => exact ⟨rfl, matched, rfl⟩
      | started => exact ⟨rfl, matched, rfl⟩
      | ended => exact endSegment_alike packet matched
      | nothing => exact continueSegment_alike packet matched score
    · simp only [if_neg speaking]
      cases reply with
      | raised => exact ⟨rfl, matched, rfl⟩
      | started => exact ⟨rfl, matched, rfl⟩
      | ended => exact endSegment_alike packet matched
      | nothing => exact ⟨rfl, matched, rfl⟩

theorem flushChannel_alike (c : Str) :
    (flushChannel cfg (sileroIterator cfg m) c s).2 =
        (flushChannel (gateOff cfg) (sileroIterator cfg m) c s').2 ∧
      Alike cfg m (flushChannel cfg (sileroIterator cfg m) c s).1
        (flushChannel (gateOff cfg) (sileroIterator cfg m) c s').1 := by
  have rest := h.rest
  have iterators := h.iterator
  clear h
  generalize s'.vadIter = v at rest iterators
  subst rest
  obtain ⟨vadIter, triggered, preroll, chunks, startTs, segmentId⟩ := s
  cases startTs with
  | none => exact ⟨rfl, iterators, rfl⟩
  | some startTs =>
    by_cases empty : chunks = []
    · simp only [flushChannel, if_pos empty]
      exact ⟨trivial, iterators, rfl⟩
    · simp only [flushChannel, if_neg empty, finalizeSegment]
      cases segmentId with
      | none => exact ⟨rfl, iterators.reset, rfl⟩
      | some segmentId => exact ⟨rfl, iterators.reset, rfl⟩

/-- An idle check or a direct flush. -/
theorem channelStep_alike (c : Str) (event : VadEvent)
    (noPacket : ∀ packet now, event ≠ .packet packet now) :
    (channelStep cfg (sileroIterator cfg m) c s event).2 =
        (channelStep (gateOff cfg) (sileroIterator cfg m) c s' event).2 ∧
      Alike cfg m (channelStep cfg (sileroIterator cfg m) c s event).1
        (channelStep (gateOff cfg) (sileroIterator cfg m) c s' event).1 := by
  have arrived : s'.lastPacketAt = s.lastPacketAt := by rw [h.rest]
  cases event with
  | packet packet now => exact absurd rfl (noPacket packet now)
  | idleCheck now =>
    simp only [channelStep, arrived, gateOff]
    split
    · exact ⟨rfl, h⟩
    split
    · exact flushChannel_alike h c
    · exact ⟨rfl, h⟩
  | flush => exact flushChannel_alike h c

end Channels

section Worker

variable (keys : ChannelKeys)

theorem forEachChannel_alike {channels channels' : Channels (Silero μ)}
    (h : ∀ c, Alike cfg m (channels c) (channels' c)) (event : VadEvent)
    (noPacket : ∀ packet now, event ≠ .packet packet now) :
    (forEachChannel cfg (sileroIterator cfg m) keys channels event).2 =
        (forEachChannel (gateOff cfg) (sileroIterator cfg m) keys channels' event).2 ∧
      ∀ c, Alike cfg m ((forEachChannel cfg (sileroIterator cfg m) keys channels event).1 c)
        ((forEachChannel (gateOff cfg) (sileroIterator cfg m) keys channels' event).1 c) := by
  refine ⟨?_, fun c => ?_⟩
  · unfold forEachChannel
    simp only [(channelStep_alike (h _) _ event noPacket).1]
  · unfold forEachChannel
    simp only
    split
    · exact (channelStep_alike (h c) c event noPacket).2
    · exact h c

/-- One event of the worker, with the gate and without it. -/
theorem workerStep_alike (quiet : Quiet cfg m) {channels channels' : Channels (Silero μ)}
    (h : ∀ c, Alike cfg m (channels c) (channels' c))
    (agrees : ∀ c ∈ keys.val, (channels c).triggered = (channels c).vadIter.triggered)
    (event : VadEvent) (harmless : Harmless cfg m keys channels event) :
    (workerStep cfg (sileroIterator cfg m) keys channels event).2 =
        (workerStep (gateOff cfg) (sileroIterator cfg m) keys channels' event).2 ∧
      ∀ c, Alike cfg m ((workerStep cfg (sileroIterator cfg m) keys channels event).1 c)
        ((workerStep (gateOff cfg) (sileroIterator cfg m) keys channels' event).1 c) := by
  cases event with
  | packet packet now =>
    by_cases known : packet.channelId ∈ keys.val
    · obtain ⟨effects, alike⟩ := handlePacket_alike (h packet.channelId) packet now quiet
        (agrees _ known) (harmless known)
      simp only [workerStep, if_pos known]
      refine ⟨by rw [effects], fun c => ?_⟩
      by_cases own : c = packet.channelId
      · subst own
        simpa using alike
      · simpa [Function.update_of_ne own] using h c
    · simp only [workerStep, if_neg known]
      exact ⟨trivial, h⟩
  | idleCheck now => exact forEachChannel_alike keys h _ (by simp)
  | flush => exact forEachChannel_alike keys h _ (by simp)

variable (cfg m)

/-- While the gate withholds no chunk that would have changed what the model says later,
the worker does with the gate what it does without it. -/
theorem gate_transparent (quiet : Quiet cfg m) (iterators : Str → Silero μ)
    (events : List VadEvent)
    (harmless : ∀ past event later, events = past ++ event :: later →
      Harmless cfg m keys (reached cfg (sileroIterator cfg m) keys iterators past) event) :
    (outputs (workerStep cfg (sileroIterator cfg m) keys)
        (freshChannels (sileroIterator cfg m) iterators) events).2 =
      (outputs (workerStep (gateOff cfg) (sileroIterator cfg m) keys)
        (freshChannels (sileroIterator cfg m) iterators) events).2 := by
  suffices all : _ ∧ ∀ c, Alike cfg m
      (reached cfg (sileroIterator cfg m) keys iterators events c)
      (reached (gateOff cfg) (sileroIterator cfg m) keys iterators events c) from all.1
  induction events using List.reverseRecOn with
  | nil =>
    refine ⟨rfl, fun c => ⟨⟨fun _ => rfl, rfl, rfl, fun _ => rfl⟩, rfl⟩⟩
  | append_singleton events event ih =>
    obtain ⟨before, now⟩ := forall_inputs_concat.mp harmless
    obtain ⟨same, alike⟩ := ih before
    have coherent (c : Str) (configured : c ∈ keys.val) :=
      (worker_run (fun _ => True) cfg (sileroIterator cfg m) keys iterators configured events
        fun _ _ _ => trivial).2.iterator
    obtain ⟨step, onward⟩ := workerStep_alike keys quiet alike coherent event now
    simp only [reached, outputs_append, outputs_cons, outputs_nil, List.append_nil]
    exact ⟨by rw [same, step], onward⟩

end Worker

def gated : VADWorkerConfig := { ungated with rmsGateEnabled := true }

def rested : Str → Silero ℕ := fun _ => { model := 0 }

/-- A model that knows speech by its level and counts the chunks of it. -/
def levelModel : SpeechModel ℕ where
  score := fun _ chunk => if rmsBelow chunk (1 / 100) then 0 else 1
  next := fun n chunk => if rmsBelow chunk (1 / 100) then n else n + 1
  reset := fun _ => 0

theorem levelModel_harmless (keys : ChannelKeys) (channels : Channels (Silero ℕ))
    (event : VadEvent) : Harmless gated levelModel keys channels event := by
  cases event with
  | packet packet now =>
    intro _ chunk skips
    have below : rmsBelow chunk (1 / 100) = true := by
      have gated := skips.2
      simp only [Bool.and_eq_true] at gated
      exact gated.2
    have unchanged (n : ℕ) : levelModel.next n chunk = n := by
      simp only [levelModel, below, if_true]
    rw [unchanged]
    exact fun _ => rfl
  | idleCheck now => trivial
  | flush => trivial

/-- A silent packet, a loud one, and the shutdown flush. -/
def silentThenLoud : List VadEvent :=
  [.packet ⟨['r'], 0, [0, 0]⟩ 0, .packet ⟨['r'], 1, [0, 64]⟩ 1, .flush]

theorem level_transparent :
    (outputs (workerStep gated (sileroIterator gated levelModel) channelR)
        (freshChannels (sileroIterator gated levelModel) rested)
        silentThenLoud).2 =
      (outputs (workerStep (gateOff gated) (sileroIterator gated levelModel) channelR)
        (freshChannels (sileroIterator gated levelModel) rested)
        silentThenLoud).2 :=
  gate_transparent gated levelModel channelR
    (fun n chunk below => by
      have silent : rmsBelow chunk (1 / 100) = true := below
      simp only [levelModel, silent, if_true]
      norm_num [gated, ungated]) rested silentThenLoud
    fun _ event _ _ => levelModel_harmless channelR _ event

/-- A model that hears speech only in its context, which a chunk before it has to fill. -/
def contextModel : SpeechModel ℕ where
  score := fun n chunk => if 0 < n ∧ rmsBelow chunk (1 / 100) = false then 1 else 0
  next := fun n _ => n + 1
  reset := fun _ => 0

/-- The segments of that run. -/
def segmentsWith (cfg : VADWorkerConfig) (m : SpeechModel ℕ) : List SpeechSegment :=
  finals (effectsOn ['r'] (outputs (workerStep cfg (sileroIterator cfg m) channelR)
    (freshChannels (sileroIterator cfg m) rested) silentThenLoud).2)

/-- The gate withholds the context: without it the loud packet is in a segment, with it
there is none. -/
theorem context_withheld :
    Quiet gated contextModel ∧ segmentsWith gated contextModel = [] ∧
      (segmentsWith (gateOff gated) contextModel).map (fun s => (s.audio, s.start, s.endTs)) =
        [([0, 0, 0, 64], 0, 1 / 8000)] := by
  refine ⟨fun n chunk below => ?_, by decide +kernel, by decide +kernel⟩
  have silent : rmsBelow chunk (1 / 100) = true := below
  simp only [contextModel, silent, Bool.true_eq_false, and_false, if_false]
  norm_num [gated, ungated]

end EdgeVoice.RmsGate
