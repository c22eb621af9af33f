import EdgeVoice.SttWorker

/-! One channel's bounded segment queue between its two threads. VADWorker puts
partials with `put_nowait` and finals with the timed put of `fanout_put`; STTWorker
gets, and handles what it got. VADWorker is one thread, so nothing else is put while
one of its puts waits. Every interleaving of the two is a list of events. -/

namespace EdgeVoice.SegmentAdmission
open PythonText Models SttWorker StepSystem

/-- A segment that was not admitted, with the queue when its put began and when it
was given up. -/
structure Loss where
  segment : SpeechSegment
  atPut : List SpeechSegment
  atDrop : List SpeechSegment
deriving DecidableEq

/-- The queue, the put that waits on it, the segment STTWorker has in hand, and the
history: what was admitted, taken, lost and handled so far. -/
structure Admission (τ : Type) where
  queue : List SpeechSegment := []
  waiting : Option (SpeechSegment × List SpeechSegment) := none
  inHand : Option SpeechSegment := none
  stt : SttState τ
  admitted : List SpeechSegment := []
  taken : List SpeechSegment := []
  lostPartials : List Loss := []
  lostFinals : List Loss := []
  turns : List Turn := []

/-- `Queue.full()`; a `maxsize` of zero is no bound. -/
def isFull (maxsize : ℕ) (queue : List SpeechSegment) : Prop :=
  0 < maxsize ∧ maxsize ≤ queue.length

instance (maxsize : ℕ) (queue : List SpeechSegment) : Decidable (isFull maxsize queue) := by
  unfold isFull
  infer_instance

inductive AdmissionEvent
  | putNowait (segment : SpeechSegment)
  | fanoutPut (segment : SpeechSegment)
  | putWoken
  | putTimedOut
  | get
  | handle (activityAt startedAt finishedAt : ℚ)

def Admission.accept {τ : Type} (s : Admission τ) (segment : SpeechSegment) : Admission τ :=
  { s with queue := s.queue ++ [segment], admitted := s.admitted ++ [segment] }

variable {τ : Type} (maxsize : ℕ) (stt : STTWorkerConfig) (tr : Transcriber τ)

/-- A timed put that finds no room waits until it is woken by a get; `queue.Full` is
raised only from the check after the deadline, so only on a full queue. -/
def admissionStep (s : Admission τ) : AdmissionEvent → Option (Admission τ)
  | .putNowait segment =>
    if s.waiting.isSome ∨ segment.isPartial = false then none
    else if isFull maxsize s.queue then
      some { s with lostPartials := s.lostPartials ++ [⟨segment, s.queue, s.queue⟩] }
    else some (s.accept segment)
  | .fanoutPut segment =>
    if s.waiting.isSome ∨ segment.isPartial = true then none
    else if isFull maxsize s.queue then some { s with waiting := some (segment, s.queue) }
    else some (s.accept segment)
  | .putWoken =>
    match s.waiting with
    | none => none
    | some (segment, _) =>
      if isFull maxsize s.queue then none else some ({ s with waiting := none }.accept segment)
  | .putTimedOut =>
    match s.waiting with
    | none => none
    | some (segment, atPut) =>
      if isFull maxsize s.queue then
        some { s with
          waiting := none, lostFinals := s.lostFinals ++ [⟨segment, atPut, s.queue⟩] }
      else none
  | .get =>
    match s.inHand, s.queue with
    | none, segment :: rest =>
      some { s with queue := rest, inHand := some segment, taken := s.taken ++ [segment] }
    | _, _ => none
  | .handle activityAt startedAt finishedAt =>
    match s.inHand with
    | none => none
    | some segment =>
      let turn : Turn := ⟨segment, activityAt, s.queue.length, startedAt, finishedAt⟩
      some { s with
        inHand := none, stt := (sttStep stt tr s.stt turn).1, turns := s.turns ++ [turn] }

/-- `_handle_partial` skips the segment without decoding it. -/
def sheds (turn : Turn) : Bool :=
  turn.segment.isPartial && stt.partialMaxQueueDepth < turn.queueSize

/-- A skipped turn is counted, and nothing is decoded. -/
def Skips (state : SttState τ) (turn : Turn) : Prop :=
  sttStep stt tr state turn =
    ({ state with
        lastActivity := turn.activityAt, partialsDropped := state.partialsDropped + 1 }, [])

/-- The turn's audio goes to the transcriber, by the call for its kind. -/
def Decodes (state : SttState τ) (turn : Turn) : Prop :=
  (sttStep stt tr state turn).1.partialsDropped = state.partialsDropped ∧
    (sttStep stt tr state turn).1.transcriber =
      if turn.segment.isPartial then
        (transcribePartial stt tr state.transcriber turn.segment.audio).2
      else (transcribe stt tr state.transcriber turn.segment.audio).2

theorem skips_of_sheds (state : SttState τ) {turn : Turn} (late : sheds stt turn = true) :
    Skips stt tr state turn := by
  simp only [sheds, Bool.and_eq_true, decide_eq_true_eq] at late
  rw [Skips, sttStep, handleSegment, if_pos late.1, handlePartial, if_pos late.2]

theorem decodes_of_not_sheds (state : SttState τ) {turn : Turn} (kept : sheds stt turn = false) :
    Decodes stt tr state turn := by
  rw [Decodes]
  by_cases throwaway : turn.segment.isPartial = true
  · have shallow : ¬stt.partialMaxQueueDepth < turn.queueSize := by
      simpa [sheds, throwaway] using kept
    simp only [sttStep, handleSegment, handlePartial, throwaway, shallow, if_true, if_false]
    split <;> simp
  · simp only [sttStep, handleSegment, throwaway, if_false, Bool.false_eq_true]
    split <;> simp

/-- A lost segment found a full queue, unchanged since its put began. -/
def LostWhileFull (maxsize : ℕ) (kind : Bool) (loss : Loss) : Prop :=
  loss.segment.isPartial = kind ∧ isFull maxsize loss.atDrop ∧ loss.atDrop = loss.atPut

/-- What holds of the channel whatever the two threads did. -/
structure Conserving (s0 : SttState τ) (s : Admission τ) : Prop where
  fifo : s.admitted = s.taken ++ s.queue
  handled : s.taken = s.turns.map Turn.segment ++ s.inHand.toList
  sttRun : s.stt = (outputs (sttStep stt tr) s0 s.turns).1
  lostPartials : ∀ loss ∈ s.lostPartials, LostWhileFull maxsize true loss
  lostFinals : ∀ loss ∈ s.lostFinals, LostWhileFull maxsize false loss
  bounded : 0 < maxsize → s.queue.length ≤ maxsize
  waiting : ∀ segment atPut, s.waiting = some (segment, atPut) →
    segment.isPartial = false ∧ atPut.length ≤ maxsize ∧ s.queue <:+ atPut

variable {maxsize stt tr}

theorem Conserving.accept {s0 : SttState τ} {s : Admission τ} (segment : SpeechSegment)
    (h : Conserving maxsize stt tr s0 s) (room : ¬isFull maxsize s.queue) :
    Conserving maxsize stt tr s0 ({ s with waiting := none }.accept segment) := by
  refine ⟨?_, h.handled, h.sttRun, h.lostPartials, h.lostFinals, fun positive => ?_, by
    simp [Admission.accept]⟩
  · simp [Admission.accept, h.fifo]
  · simp only [isFull, not_and, not_le] at room
    have free := room positive
    simp only [Admission.accept, List.length_append, List.length_singleton]
    omega

theorem Conserving.acceptNow {s0 : SttState τ} {s : Admission τ} (segment : SpeechSegment)
    (h : Conserving maxsize stt tr s0 s) (free : s.waiting = none)
    (room : ¬isFull maxsize s.queue) : Conserving maxsize stt tr s0 (s.accept segment) := by
  have admitted := h.accept segment room
  rwa [show { s with waiting := none } = s by rw [← free]] at admitted

theorem lost_append {kind : Bool} {losses : List Loss} {loss : Loss}
    (losses_full : ∀ loss ∈ losses, LostWhileFull maxsize kind loss)
    (loss_full : LostWhileFull maxsize kind loss) :
    ∀ other ∈ losses ++ [loss], LostWhileFull maxsize kind other := by
  intro other member
  rcases List.mem_append.mp member with old | new
  · exact losses_full other old
  · rw [List.mem_singleton.mp new]
    exact loss_full

theorem Conserving.shed {s0 : SttState τ} {s : Admission τ} {segment : SpeechSegment}
    (h : Conserving maxsize stt tr s0 s) (throwaway : segment.isPartial = true)
    (full : isFull maxsize s.queue) :
    Conserving maxsize stt tr s0
      { s with lostPartials := s.lostPartials ++ [⟨segment, s.queue, s.queue⟩] } :=
  ⟨h.fifo, h.handled, h.sttRun, lost_append h.lostPartials ⟨throwaway, full, rfl⟩,
    h.lostFinals, h.bounded, h.waiting⟩

theorem Conserving.wait {s0 : SttState τ} {s : Admission τ} {segment : SpeechSegment}
    (h : Conserving maxsize stt tr s0 s) (final : segment.isPartial = false)
    (full : isFull maxsize s.queue) :
    Conserving maxsize stt tr s0 { s with waiting := some (segment, s.queue) } := by
  refine ⟨h.fifo, h.handled, h.sttRun, h.lostPartials, h.lostFinals, h.bounded, ?_⟩
  intro other atPut put
  simp only [Option.some.injEq, Prod.mk.injEq] at put
  obtain ⟨rfl, rfl⟩ := put
  exact ⟨final, h.bounded full.1, List.suffix_rfl⟩

theorem Conserving.timeOut {s0 : SttState τ} {s : Admission τ} {segment : SpeechSegment}
    {atPut : List SpeechSegment} (h : Conserving maxsize stt tr s0 s)
    (put : s.waiting = some (segment, atPut)) (full : isFull maxsize s.queue) :
    Conserving maxsize stt tr s0
      { s with
        waiting := none, lostFinals := s.lostFinals ++ [⟨segment, atPut, s.queue⟩] } := by
  obtain ⟨final, small, suffix⟩ := h.waiting segment atPut put
  -- only gets could have changed the queue, and one get would have made room
  have same : s.queue = atPut := suffix.eq_of_length_le (small.trans full.2)
  exact ⟨h.fifo, h.handled, h.sttRun, h.lostPartials,
    lost_append h.lostFinals ⟨final, full, same⟩, h.bounded, by simp⟩

theorem Conserving.get {s0 : SttState τ} {s : Admission τ} {segment : SpeechSegment}
    {rest : List SpeechSegment} (h : Conserving maxsize stt tr s0 s) (idle : s.inHand = none)
    (items : s.queue = segment :: rest) :
    Conserving maxsize stt tr s0
      { s with queue := rest, inHand := some segment, taken := s.taken ++ [segment] } := by
  refine ⟨?_, ?_, h.sttRun, h.lostPartials, h.lostFinals, ?_, ?_⟩
  · simp [h.fifo, items]
  · simp [h.handled, idle]
  · intro positive
    have bound := h.bounded positive
    rw [items, List.length_cons] at bound
    simp only
    omega
  · intro other atPut put
    obtain ⟨final, small, suffix⟩ := h.waiting other atPut put
    rw [items] at suffix
    exact ⟨final, small, (List.suffix_cons segment rest).trans suffix⟩

theorem Conserving.handle {s0 : SttState τ} {s : Admission τ} {turn : Turn}
    (h : Conserving maxsize stt tr s0 s) (hand : s.inHand = some turn.segment) :
    Conserving maxsize stt tr s0
      { s with
        inHand := none, stt := (sttStep stt tr s.stt turn).1, turns := s.turns ++ [turn] } := by
  refine ⟨h.fifo, ?_, ?_, h.lostPartials, h.lostFinals, h.bounded, h.waiting⟩
  · simp [h.handled, hand]
  · simp [outputs_append, h.sttRun]

theorem Conserving.step {s0 : SttState τ} {s s' : Admission τ} {event : AdmissionEvent}
    (h : Conserving maxsize stt tr s0 s) (next : admissionStep maxsize stt tr s event = some s') :
    Conserving maxsize stt tr s0 s' := by
  cases event with
  | putNowait segment =>
    simp only [admissionStep] at next
    by_cases blocked : s.waiting.isSome ∨ segment.isPartial = false
    · simp [blocked] at next
    have free : s.waiting = none := Option.not_isSome_iff_eq_none.mp (not_or.mp blocked).1
    have throwaway : segment.isPartial = true := by simpa using (not_or.mp blocked).2
    rw [if_neg blocked] at next
    by_cases full : isFull maxsize s.queue
    · rw [if_pos full] at next
      cases next
      exact h.shed throwaway full
    · rw [if_neg full] at next
      cases next
      exact h.acceptNow segment free full
  | fanoutPut segment =>
    simp only [admissionStep] at next
    by_cases blocked : s.waiting.isSome ∨ segment.isPartial = true
    · simp [blocked] at next
    have free : s.waiting = none := Option.not_isSome_iff_eq_none.mp (not_or.mp blocked).1
    have final : segment.isPartial = false := by simpa using (not_or.mp blocked).2
    rw [if_neg blocked] at next
    by_cases full : isFull maxsize s.queue
    · rw [if_pos full] at next
      cases next
      exact h.wait final full
    · rw [if_neg full] at next
      cases next
      exact h.acceptNow segment free full
  | putWoken =>
    simp only [admissionStep] at next
    cases put : s.waiting with
    | none => simp [put] at next
    | some waiting =>
      obtain ⟨segment, atPut⟩ := waiting
      simp only [put] at next
      by_cases full : isFull maxsize s.queue
      · simp [full] at next
      · rw [if_neg full] at next
        cases next
        exact h.accept segment full
  | putTimedOut =>
    simp only [admissionStep] at next
    cases put : s.waiting with
    | none => simp [put] at next
    | some waiting =>
      obtain ⟨segment, atPut⟩ := waiting
      simp only [put] at next
      by_cases full : isFull maxsize s.queue
      · rw [if_pos full] at next
        cases next
        exact h.timeOut put full
      · simp [full] at next
  | get =>
    simp only [admissionStep] at next
    cases hand : s.inHand with
    | some segment => simp [hand] at next
    | none =>
      cases items : s.queue with
      | nil => simp [hand, items] at next
      | cons segment rest =>
        simp only [hand, items] at next
        cases next
        exact h.get hand items
  | handle activityAt startedAt finishedAt =>
    simp only [admissionStep] at next
    cases hand : s.inHand with
    | none => simp [hand] at next
    | some segment =>
      simp only [hand, Option.some.injEq] at next
      subst next
      exact h.handle hand

variable (maxsize stt tr)

/-- The partials that were dequeued and skipped are those that found a deeper queue
than allowed. -/
theorem partialsDropped_eq (s0 : SttState τ) (turns : List Turn) :
    (outputs (sttStep stt tr) s0 turns).1.partialsDropped =
      s0.partialsDropped + turns.countP (sheds stt) := by
  induction turns generalizing s0 with
  | nil => rfl
  | cons turn turns ih =>
    rw [outputs_cons, ih, List.countP_cons]
    cases late : sheds stt turn with
    | true =>
      have counted : (sttStep stt tr s0 turn).1.partialsDropped = s0.partialsDropped + 1 := by
        rw [skips_of_sheds stt tr s0 late]
      rw [counted, if_pos rfl]
      omega
    | false =>
      rw [(decodes_of_not_sheds stt tr s0 late).1, if_neg Bool.false_ne_true, Nat.add_zero]

/-- Every interleaving of puts and gets: a final is lost only after its whole wait on
a queue that stayed as it was and full, a partial only on a full queue; nothing
admitted is evicted, and of what is taken just the partials that find a deeper queue than
allowed are skipped, and all else is decoded. -/
theorem final_lost_only_while_full (s0 : SttState τ) {events : List AdmissionEvent}
    {s : Admission τ} (h : run (admissionStep maxsize stt tr) { stt := s0 } events = some s) :
    (∀ loss ∈ s.lostFinals, LostWhileFull maxsize false loss) ∧
      (∀ loss ∈ s.lostPartials, LostWhileFull maxsize true loss) ∧
      s.admitted = s.turns.map Turn.segment ++ s.inHand.toList ++ s.queue ∧
      s.stt.partialsDropped = s0.partialsDropped + s.turns.countP (sheds stt) ∧
      s.stt = (outputs (sttStep stt tr) s0 s.turns).1 ∧
      ∀ past turn later, s.turns = past ++ turn :: later →
        let state := (outputs (sttStep stt tr) s0 past).1
        if turn.segment.isPartial = true ∧ stt.partialMaxQueueDepth < turn.queueSize then
          Skips stt tr state turn
        else Decodes stt tr state turn := by
  have conserving := run_invariant (admissionStep maxsize stt tr)
    (I := Conserving maxsize stt tr s0)
    ⟨rfl, rfl, rfl, by simp, by simp, by simp, by simp⟩
    (fun _ _ _ holds next => holds.step next) h
  refine ⟨conserving.lostFinals, conserving.lostPartials, ?_, ?_, conserving.sttRun, ?_⟩
  · rw [conserving.fifo, conserving.handled]
  · rw [conserving.sttRun, partialsDropped_eq]
  · intro past turn later _ state
    split
    · rename_i late
      exact skips_of_sheds stt tr state (by simp [sheds, late])
    · rename_i kept
      exact decodes_of_not_sheds stt tr state (by simpa [sheds] using kept)

section FullOfPartials

def wordless : Transcriber Unit where
  removeAllListeners _ := (false, ())
  addListener _ := (false, ())
  start _ := ⟨false, [], ()⟩
  addAudio _ _ _ := ⟨false, [], ()⟩
  stop _ := ⟨false, [], ()⟩
  transcribeWithoutStreaming _ _ _ := (some [], ())

/-- A partial takes the only slot, and the final that follows waits in vain. -/
def slotTaken : List AdmissionEvent :=
  [.putNowait ⟨['r'], 0, 1, [1, 0], ['i'], true⟩,
    .fanoutPut ⟨['r'], 0, 2, [1, 0, 1, 0], ['i'], false⟩, .putTimedOut]

/-- The channel after it. -/
def slotTakenEnd : Admission Unit :=
  { queue := [⟨['r'], 0, 1, [1, 0], ['i'], true⟩]
    stt := { transcriber := () }
    admitted := [⟨['r'], 0, 1, [1, 0], ['i'], true⟩]
    lostFinals := [⟨⟨['r'], 0, 2, [1, 0, 1, 0], ['i'], false⟩,
      [⟨['r'], 0, 1, [1, 0], ['i'], true⟩], [⟨['r'], 0, 1, [1, 0], ['i'], true⟩]⟩] }

theorem slotTaken_lost_while_full :
    ∃ loss ∈ slotTakenEnd.lostFinals, LostWhileFull 1 false loss := by
  have reached : run (admissionStep 1 {} wordless) { stt := { transcriber := () } } slotTaken =
      some slotTakenEnd := rfl
  have lost := (final_lost_only_while_full 1 {} wordless { transcriber := () } reached).1
  exact ⟨_, List.mem_singleton.mpr rfl, lost _ (List.mem_singleton.mpr rfl)⟩

theorem partial_outlives_final :
    run (admissionStep 1 {} wordless) { stt := { transcriber := () } } slotTaken =
        some slotTakenEnd ∧
      ¬∀ loss ∈ slotTakenEnd.lostFinals, ∀ item ∈ loss.atDrop, item.isPartial = false := by
  refine ⟨rfl, ?_⟩
  simp [slotTakenEnd]

end FullOfPartials

end EdgeVoice.SegmentAdmission
