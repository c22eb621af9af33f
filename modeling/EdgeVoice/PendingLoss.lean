import EdgeVoice.AudioPath

/-! What a VADWorker that is replaced takes with it. Whatever it heard before, the speech that
is in none of its finals is what pending_loss reports to the supervisor, to the sample. -/

namespace EdgeVoice.PendingLoss
open PythonText Models VadWorker VadTrack AudioLedger AudioPath StepSystem

variable {σ : Type} (cfg : VADWorkerConfig) (it : VADIterator σ)

/-- `f"{x:.2f}"`. -/
def fixed2 (x : ℚ) : Str :=
  let hundredths := (roundHalfEven (|x| * 100)).toNat
  (if x < 0 then ['-'] else []) ++ decimal (hundredths / 100) ++
    ['.', Nat.digitChar (hundredths / 10 % 10), Nat.digitChar (hundredths % 10)]

/-- The seconds that `pending_loss` reports of a channel. -/
def pendingSeconds (state : ChannelState σ) : Option ℚ :=
  if state.segmentStartTs.isSome ∧ state.segmentChunks ≠ [] then
    let nSamples : ℕ := (state.segmentChunks.map List.length).sum / 2
    some ((nSamples : ℚ) / cfg.sampleRate)
  else none

def pendingLoss (keys : ChannelKeys) (channels : Channels σ) : Option Str :=
  let parts := keys.val.filterMap fun c =>
    (pendingSeconds cfg (channels c)).map fun seconds => c ++ '=' :: fixed2 seconds ++ ['s']
  if parts = [] then none else some (List.intercalate [',', ' '] parts)

variable {cfg it}

theorem openChunks_coherent {state : ChannelState σ} (h : Coherent anyTime cfg it state) :
    openChunks (track state) = state.segmentChunks := by
  by_cases speaking : state.triggered = true
  · obtain ⟨startTs, segmentId, hs, hi⟩ := h.open speaking
    rw [track_open hs hi]
    rfl
  · have quiet : state.triggered = false := by simpa using speaking
    rw [track_closed (h.closed quiet).1, h.idle quiet]
    rfl

theorem pendingSeconds_coherent {state : ChannelState σ} (h : Coherent anyTime cfg it state) :
    pendingSeconds cfg state =
      if openChunks (track state) = [] then none
      else some (((openChunks (track state)).flatten.length / 2 : ℕ) / (cfg.sampleRate : ℚ)) := by
  rw [openChunks_coherent h, List.length_flatten]
  by_cases empty : state.segmentChunks = []
  · rw [pendingSeconds, if_neg (by simp [empty]), if_pos empty]
  · have speaking : state.triggered = true := by
      by_contra quiet
      exact empty (h.idle (by simpa using quiet))
    rw [pendingSeconds, if_pos ⟨h.startTs.trans speaking, empty⟩, if_neg empty]

theorem pendingLoss_none (keys : ChannelKeys) (channels : Channels σ) :
    pendingLoss cfg keys channels = none ↔
      ∀ c ∈ keys.val, pendingSeconds cfg (channels c) = none := by
  simp [pendingLoss, List.filterMap_eq_nil_iff]

/-- What the worker heard without raising are whole samples. -/
theorem heard_even (keys : ChannelKeys) (c : Str) (channels : Channels σ)
    (events : List VadEvent) :
    ∀ r ∈ heard (receptions cfg it keys c channels events), Even r.samples.length := by
  induction events generalizing channels with
  | nil => simp [receptions, heard]
  | cons event events ih =>
    intro r member
    rw [receptions, heard, List.filter_append, List.mem_append] at member
    rcases member with now | later
    · obtain ⟨received, accepted⟩ := List.mem_filter.mp now
      cases event with
      | packet packet at_ =>
        simp only [reception] at received
        split at received
        · rw [List.mem_singleton.mp received] at accepted ⊢
          by_contra odd
          rw [← pcmToFloat_eq_none] at odd
          simp [raises, odd] at accepted
        · cases received
      | idleCheck | flush => cases received
    · exact ih _ r later

theorem keptChunks_even {n : ℕ} {log : List Reception}
    (even : ∀ r ∈ log, Even r.samples.length) : ∀ chunk ∈ keptChunks n log, Even chunk.length := by
  intro chunk member
  obtain ⟨i, _, rfl⟩ := List.mem_map.mp member
  unfold chunkAt
  cases there : log[i]? with
  | none => simp
  | some r => exact even r (List.mem_of_getElem? there)

theorem even_flatten {chunks : List (List UInt8)} (even : ∀ chunk ∈ chunks, Even chunk.length) :
    Even chunks.flatten.length := by
  induction chunks with
  | nil => simp
  | cons chunk chunks ih =>
    rw [List.flatten_cons, List.length_append]
    exact (even chunk List.mem_cons_self).add
      (ih fun later member => even later (List.mem_cons_of_mem _ member))

variable (cfg it)

/-- What a worker has put and what its channels are after some events. -/
abbrev lived (keys : ChannelKeys) (iterators : Str → σ) (events : List VadEvent) :
    Channels σ × List (Str × Effect) :=
  outputs (workerStep cfg it keys) (freshChannels it iterators) events

/-- The packets of a channel that it took in by then. -/
abbrev taken (keys : ChannelKeys) (iterators : Str → σ) (events : List VadEvent) (c : Str) :
    List Reception :=
  heard (receptions cfg it keys c (freshChannels it iterators) events)

/-- However the life of a VADWorker ends, on each channel: its finals and then the part that is
lost are the speech it heard, with the preroll of each start; and the seconds it reports of the
channel are those of the lost part, no report meaning that nothing is lost. -/
theorem loss_is_reported (keys : ChannelKeys) (iterators : Str → σ) (events : List VadEvent)
    {c : Str} (configured : c ∈ keys.val) :
    ∃ lost : List UInt8,
      (finals (effectsOn c (lived cfg it keys iterators events).2)).flatMap SpeechSegment.audio ++
        lost =
          (keptPositions cfg.prerollChunks.toNat (taken cfg it keys iterators events c)).flatMap
            (chunkAt (taken cfg it keys iterators events c)) ∧
      (pendingSeconds cfg ((lived cfg it keys iterators events).1 c)).getD 0 * cfg.sampleRate * 2 =
        lost.length ∧
      (pendingLoss cfg keys (lived cfg it keys iterators events).1 = none → lost = []) := by
  have fresh : Ledger cfg it c [] [] (freshChannels it iterators c) := Ledger.fresh c iterators
  have ledger : Ledger cfg it c (taken cfg it keys iterators events c)
      (effectsOn c (lived cfg it keys iterators events).2)
      ((lived cfg it keys iterators events).1 c) := fresh.run keys configured events
  generalize heardLog : taken cfg it keys iterators events c = log at ledger ⊢
  generalize lived cfg it keys iterators events = out at ledger ⊢
  have partition := AudioLedger.Run.conserves ledger.kept
  have start : openChunks ⟨0, none⟩ = [] := rfl
  rw [start, List.nil_append] at partition
  have bytes := Partitions.bytes partition
  have reported := pendingSeconds_coherent ledger.coherent
  refine ⟨(openChunks (track (out.1 c))).flatten, ?_, ?_, fun none => ?_⟩
  · rw [bytes, keptChunks, List.flatMap_def]
  · have even : Even (openChunks (track (out.1 c))).flatten.length := by
      obtain ⟨parts, _, _, taken⟩ := partition
      refine even_flatten fun chunk member => ?_
      have kept : chunk ∈ keptChunks cfg.prerollChunks.toNat log := by
        rw [taken]
        exact List.mem_append_right _ member
      exact keptChunks_even (heardLog ▸ heard_even keys c _ events) chunk kept
    have whole := Nat.div_two_mul_two_of_even even
    have rate : (cfg.sampleRate : ℚ) ≠ 0 := by exact_mod_cast cfg.sampleRate_pos.ne'
    rw [reported]
    split
    · rename_i nothing
      simp [nothing]
    · rw [Option.getD_some, div_mul_cancel₀ _ rate]
      exact_mod_cast whole
  · have silent := (pendingLoss_none keys out.1).mp none c configured
    rw [reported] at silent
    split at silent
    · rename_i nothing
      rw [nothing, List.flatten_nil]
    · cases silent

/-- A worker that is replaced in the middle of a word. -/
def brokenWord : List VadEvent := [.packet ⟨['r'], 0, [1, 0]⟩ 0, .packet ⟨['r'], 1, [2, 0]⟩ 1]

theorem brokenWord_reported :
    pendingLoss ungated channelR
        (lived ungated levelIterator channelR (fun _ => false) brokenWord).1 =
          some "r=0.00s".toList ∧
      ∃ lost : List UInt8,
        (finals (effectsOn ['r']
          (lived ungated levelIterator channelR (fun _ => false) brokenWord).2)).flatMap
            SpeechSegment.audio ++ lost = [1, 0, 2, 0] ∧
        (pendingSeconds ungated
          ((lived ungated levelIterator channelR (fun _ => false) brokenWord).1 ['r'])).getD 0 *
            ungated.sampleRate * 2 = lost.length := by
  have whole : (keptPositions ungated.prerollChunks.toNat
      (taken ungated levelIterator channelR (fun _ => false) brokenWord ['r'])).flatMap
        (chunkAt (taken ungated levelIterator channelR (fun _ => false) brokenWord ['r'])) =
          [1, 0, 2, 0] := by
    decide +kernel
  obtain ⟨lost, balance, seconds, _⟩ :=
    loss_is_reported ungated levelIterator channelR (fun _ => false) brokenWord
      (c := ['r']) (by decide)
  exact ⟨by decide +kernel, lost, balance.trans whole, seconds⟩

end EdgeVoice.PendingLoss
