import EdgeVoice.VadCases

/-! The representation invariant of a channel's state, over every sequence of calls of
`_handle_packet`, `_flush_idle`, `flush` and `reset_channel`: which fields say that speech
is in progress, and which chunks the recorded scores are of. -/

namespace EdgeVoice.StateInvariant
open PythonText Models VadWorker VadTrack ChunkTrace SegmentOrder VadCases StepSystem

variable {σ : Type}

/-- The scores are recorded in speech, one a chunk and in the order of the chunks. -/
structure Scored (state : ChannelState σ) : Prop where
  idle : state.triggered = false → state.scores = []
  increasing : (state.scores.map Prod.fst).Pairwise (· < ·)
  inside : ∀ entry ∈ state.scores, entry.1 < state.segmentChunks.length

theorem Scored.none {state : ChannelState σ} (empty : state.scores = []) : Scored state := by
  constructor <;> simp [empty]

section Steps

variable {cfg : VADWorkerConfig} {it : VADIterator σ} {state : ChannelState σ}

/-- One more chunk, and its score or none. -/
theorem Scored.scored (h : Scored state) (speaking : state.triggered = true)
    (fresh : ∀ entry ∈ state.scores, entry.1 < state.segmentChunks.length - 1)
    (nonempty : state.segmentChunks ≠ []) : Scored (scored it state) := by
  have pos := List.length_pos_iff.mpr nonempty
  refine ⟨by simp [VadCases.scored, speaking], increasing_concat h.increasing fresh _, ?_⟩
  intro entry member
  rcases List.mem_append.mp member with old | new
  · exact h.inside entry old
  · rw [List.mem_singleton.mp new]
    simp only [VadCases.scored]
    omega

/-- A cut numbers the scores of the tail anew. -/
theorem Scored.cut (h : Scored state) (c : Str) (k : ℕ) (chunkS : ℚ)
    (speaking : state.triggered = true) {startTs : ℚ} {segmentId : Str}
    (begun : state.segmentStartTs = some startTs) (named : state.segmentId = some segmentId) :
    Scored (cutSegment c k chunkS state).1 := by
  rcases cutSegment_cases c k chunkS state with same | ⟨pos, inside⟩
  · rw [same]
    exact h
  rw [cutSegment_open c k chunkS begun named pos inside]
  refine ⟨by simp [speaking], increasing_cut h.increasing k, ?_⟩
  intro entry member
  have before := h.inside _ (mem_of_mem_cut member)
  simp only [List.length_drop]
  omega

theorem cutSegment_counter (c : Str) (k : ℕ) (chunkS : ℚ) {startTs : ℚ} {segmentId : Str}
    (begun : state.segmentStartTs = some startTs) (named : state.segmentId = some segmentId) :
    state.segCounter ≤ (cutSegment c k chunkS state).1.segCounter := by
  rcases cutSegment_cases c k chunkS state with same | ⟨pos, inside⟩
  · rw [same]
  · rw [cutSegment_open c k chunkS begun named pos inside]
    exact Nat.le_succ _

/-- The middle of speech, with the packet's chunk just buffered and not scored yet. -/
theorem Scored.continueSegment (packet : AudioPacket) (h : Scored state)
    (fresh : ∀ entry ∈ state.scores, entry.1 < state.segmentChunks.length - 1)
    (nonempty : state.segmentChunks ≠ []) (speaking : state.triggered = true) {startTs : ℚ}
    {segmentId : Str} (begun : state.segmentStartTs = some startTs)
    (named : state.segmentId = some segmentId) :
    Scored (continueSegment cfg it packet state).1 ∧
      state.segCounter ≤ (VadWorker.continueSegment cfg it packet state).1.segCounter := by
  obtain ⟨cut, shown, did, then_, same⟩ :=
    @continueSegment_case σ cfg it packet state startTs segmentId begun named
  have checked : Scored cut.1 ∧ state.segCounter ≤ cut.1.segCounter := by
    cases did with
    | none => exact ⟨h, le_refl _⟩
    | recorded => exact ⟨h.scored speaking fresh nonempty, le_refl _⟩
    | hard => exact ⟨h.cut _ _ _ speaking begun named, cutSegment_counter _ _ _ begun named⟩
    | soft =>
      have recorded := @Scored.scored σ it state h speaking fresh nonempty
      exact ⟨recorded.cut _ _ _ speaking begun named,
        @cutSegment_counter σ (VadCases.scored it state) _ _ _ _ _ begun named⟩
  rw [same]
  cases then_ with
  | silent => exact checked
  | shown => exact ⟨⟨checked.1.idle, checked.1.increasing, checked.1.inside⟩, checked.2⟩

/-- The step lemma. -/
theorem Scored.step {ok : ℚ → Prop} {c : Str} (coherent : Coherent ok cfg it state)
    (h : Scored state) (event : VadEvent)
    (own : ∀ packet now, event = .packet packet now → packet.channelId = c) :
    Scored (channelStep cfg it c state event).1 ∧
      state.segCounter ≤ (channelStep cfg it c state event).1.segCounter := by
  have did := channelStep_case coherent event own
  generalize channelStep cfg it c state event = result at did
  cases did with
  | idle => exact ⟨h, le_refl _⟩
  | lost => exact ⟨⟨h.idle, h.increasing, h.inside⟩, le_refl _⟩
  | waited packet now received quiet =>
    exact ⟨Scored.none (by simpa [pushPreroll] using h.idle quiet), le_refl _⟩
  | started => exact ⟨Scored.none rfl, Nat.le_succ _⟩
  | ended => exact ⟨Scored.none rfl, le_refl _⟩
  | flushed => exact ⟨Scored.none rfl, le_refl _⟩
  | continued packet now received speaking reply triggered startTs segmentId begun named =>
    have longer : Scored (extended it packet now state) := by
      refine ⟨h.idle, h.increasing, fun entry member => ?_⟩
      have before := h.inside entry member
      simp only [extended, List.length_append, List.length_singleton]
      omega
    apply longer.continueSegment packet _ (by simp [extended]) speaking begun named
    intro entry member
    have before := h.inside entry member
    simp only [extended, List.length_append, List.length_singleton]
    omega

end Steps

section Calls

variable (cfg : VADWorkerConfig) (it : VADIterator σ)

/-- What the worker thread and its owner call. -/
inductive Call
  | event (event : VadEvent)
  | resetChannel (channelId : Str)

def callStep (keys : ChannelKeys) (channels : Channels σ) : Call → Channels σ
  | .event event => (workerStep cfg it keys channels event).1
  | .resetChannel c =>
    if c ∈ keys.val then Function.update channels c (resetChannel it (channels c)) else channels

/-- The worker after the calls. -/
def called (keys : ChannelKeys) (iterators : Str → σ) (calls : List Call) : Channels σ :=
  calls.foldl (callStep cfg it keys) (freshChannels it iterators)

/-- What the nine fields of a channel's state say together. -/
structure Representation (state : ChannelState σ) : Prop where
  startTs : state.triggered = true ↔ state.segmentStartTs.isSome = true
  segmentId : state.segmentStartTs.isSome = true ↔ state.segmentId.isSome = true
  iterator : state.segmentId.isSome = true ↔ it.triggered state.vadIter = true
  idle : state.triggered = false → state.segmentChunks = [] ∧ state.scores = []
  speech : state.triggered = true → state.preroll = []
  preroll : (state.preroll.length : ℤ) ≤ max cfg.prerollChunks 0
  increasing : (state.scores.map Prod.fst).Pairwise (· < ·)
  inside : ∀ entry ∈ state.scores, entry.1 < state.segmentChunks.length

variable {cfg it}

theorem Representation.of {ok : ℚ → Prop} {state : ChannelState σ}
    (coherent : Coherent ok cfg it state) (h : Scored state) : Representation cfg it state := by
  refine ⟨?_, ?_, ?_, fun quiet => ⟨coherent.idle quiet, h.idle quiet⟩, coherent.speech, ?_,
    h.increasing, h.inside⟩
  · rw [coherent.startTs]
  · rw [coherent.startTs, coherent.segmentId]
  · rw [coherent.segmentId, coherent.iterator]
  · have bound := coherent.prerollBound
    omega

theorem workerStep_elsewhere (keys : ChannelKeys) (channels : Channels σ) (event : VadEvent)
    {c : Str} (other : c ∉ keys.val) : (workerStep cfg it keys channels event).1 c = channels c := by
  cases event with
  | packet packet now =>
    simp only [workerStep]
    split
    · rename_i known
      apply Function.update_of_ne
      rintro rfl
      exact other known
    · rfl
  | idleCheck now => simp [workerStep, forEachChannel, other]
  | flush => simp [workerStep, forEachChannel, other]

/-- A call keeps a channel's invariant and lets its counter grow only. -/
theorem callStep_kept (keys : ChannelKeys) {channels : Channels σ} (call : Call) (c : Str)
    (coherent : Coherent (fun _ => True) cfg it (channels c)) (h : Scored (channels c)) :
    Coherent (fun _ => True) cfg it (callStep cfg it keys channels call c) ∧
      Scored (callStep cfg it keys channels call c) ∧
      (channels c).segCounter ≤ (callStep cfg it keys channels call c).segCounter := by
  have same : Coherent (fun _ => True) cfg it (channels c) ∧ Scored (channels c) ∧
      (channels c).segCounter ≤ (channels c).segCounter := ⟨coherent, h, le_refl _⟩
  by_cases configured : c ∈ keys.val
  · cases call with
    | event event =>
      have step := congrArg Prod.fst (workerStep_channel cfg it keys channels event configured)
      simp only at step
      rw [callStep, step]
      by_cases mine : concerns c event = true
      · rw [if_pos mine]
        have own : ∀ packet now, event = .packet packet now → packet.channelId = c := by
          rintro packet now rfl
          simpa [concerns] using mine
        exact ⟨(channelStep_run c coherent event fun packet now received =>
          ⟨own packet now received, trivial⟩).2, h.step coherent event own⟩
      · rw [if_neg mine]
        exact same
    | resetChannel d =>
      rw [callStep]
      by_cases known : d ∈ keys.val
      · rw [if_pos known]
        by_cases mine : c = d
        · subst mine
          rw [Function.update_self]
          refine ⟨?_, Scored.none rfl, le_refl _⟩
          constructor <;> simp [resetChannel, it.reset_protocol]
        · rw [Function.update_of_ne mine]
          exact same
      · rw [if_neg known]
        exact same
  · cases call with
    | event event =>
      rw [callStep, workerStep_elsewhere keys channels event configured]
      exact same
    | resetChannel d =>
      rw [callStep]
      by_cases known : d ∈ keys.val
      · have apart : c ≠ d := fun equal => configured (equal ▸ known)
        rw [if_pos known, Function.update_of_ne apart]
        exact same
      · rw [if_neg known]
        exact same

theorem foldl_kept (keys : ChannelKeys) (c : Str) (calls : List Call) {channels : Channels σ}
    (coherent : Coherent (fun _ => True) cfg it (channels c)) (h : Scored (channels c)) :
    Coherent (fun _ => True) cfg it (calls.foldl (callStep cfg it keys) channels c) ∧
      Scored (calls.foldl (callStep cfg it keys) channels c) ∧
      (channels c).segCounter ≤ (calls.foldl (callStep cfg it keys) channels c).segCounter := by
  induction calls generalizing channels with
  | nil => exact ⟨coherent, h, le_refl _⟩
  | cons call calls ih =>
    obtain ⟨coherent', h', grown⟩ := callStep_kept keys call c coherent h
    obtain ⟨coherent'', h'', grown'⟩ := ih coherent' h'
    exact ⟨coherent'', h'', grown.trans grown'⟩

variable (cfg it)

/-- After any calls, whether or not decoding or the model raised in them, a channel's fields
agree with each other, and the counter of its ids has never gone back. -/
theorem representation_kept (keys : ChannelKeys) (iterators : Str → σ) (calls later : List Call)
    (c : Str) :
    Representation cfg it (called cfg it keys iterators calls c) ∧
      (called cfg it keys iterators calls c).segCounter ≤
        (called cfg it keys iterators (calls ++ later) c).segCounter := by
  have fresh : Scored (freshChannels it iterators c) := Scored.none rfl
  obtain ⟨coherent, h, _⟩ := foldl_kept keys c calls
    (freshChannels_coherent (fun _ => True) cfg it iterators c) fresh
  refine ⟨Representation.of coherent h, ?_⟩
  rw [called, called, List.foldl_append]
  exact (foldl_kept keys c later coherent h).2.2

end Calls

end EdgeVoice.StateInvariant
