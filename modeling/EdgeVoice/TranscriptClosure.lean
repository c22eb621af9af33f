import EdgeVoice.SegmentLifecycle

/-! When a shown segment is closed. A partial is shown when its prefix decodes to
visible, unrepetitive text; its final closes it when the streamed session raises
nowhere and leaves a visible line. The two decoder entry points are unrelated, so a
shown segment is closed exactly when the final does as well. -/

namespace EdgeVoice.TranscriptClosure
open PythonText Models SttWorker SegmentLifecycle StepSystem

variable {τ : Type} (cfg : STTWorkerConfig) (tr : Transcriber τ)

/-- The transcriber once the session's own listener is the only one. -/
def listening (s : τ) : τ := (tr.addListener (tr.removeAllListeners s).2).2

def started (s : τ) : Answer τ := tr.start (listening tr s)

def fed (s : τ) (samples : List ℚ) : Answer τ :=
  tr.addAudio (started tr s).next samples cfg.sampleRate

def stopped (s : τ) (samples : List ℚ) : Answer τ := tr.stop (fed cfg tr s samples).next

/-- Everything the session's collector hears. -/
def reported (s : τ) (samples : List ℚ) : List LineEvent :=
  (started tr s).reported ++ (fed cfg tr s samples).reported ++ (stopped cfg tr s samples).reported

/-- The line text a collector would fall back on: the last unrepetitive one. -/
def lastShown (events : List LineEvent) : Str :=
  ((events.filterMap fun
    | .textChanged text => if isRepetitive text cfg.repetitiveRatio then none else some text
    | .completed _ => none).getLast?).getD []

/-- A final closes its segment: no call raises, the audio is int16, and some completed
line shows something, itself or through the fallback of a repetitive line. -/
structure Closes (s : τ) (segment : SpeechSegment) : Prop where
  removed : (tr.removeAllListeners s).1 = false
  added : (tr.addListener (tr.removeAllListeners s).2).1 = false
  begun : (started tr s).raised = false
  decoded : ∃ samples, pcmToFloat segment.audio = some samples ∧
    (fed cfg tr s samples).raised = false ∧ (stopped cfg tr s samples).raised = false ∧
    ∃ past text later, reported cfg tr s samples = past ++ .completed text :: later ∧
      Shows (if isRepetitive text cfg.repetitiveRatio then lastShown cfg past else text)

/-- A partial shows its segment: it is not shed, its audio is int16, the transcriber
answers, and the joined lines are visible and not repetitive. -/
structure Opens (s : τ) (turn : Turn) : Prop where
  admitted : ¬cfg.partialMaxQueueDepth < turn.queueSize
  decoded : ∃ samples lines, pcmToFloat turn.segment.audio = some samples ∧
    (tr.transcribeWithoutStreaming s samples cfg.sampleRate).1 = some lines ∧
    (∃ line ∈ lines, Shows line) ∧
    isRepetitive (strip (joinWords (lines.filter (· ≠ [])))) cfg.repetitiveRatio = false

theorem Shows.ne_nil {text : Str} (h : Shows text) : text ≠ [] := by
  rintro rfl
  obtain ⟨c, member, _⟩ := h
  simp at member

theorem foldl_hear (events : List LineEvent) :
    (events.foldl (Collector.hear cfg.repetitiveRatio) {}).bestPartial = lastShown cfg events ∧
      ((∃ line ∈ (events.foldl (Collector.hear cfg.repetitiveRatio) {}).lines, Shows line) ↔
        ∃ past text later, events = past ++ .completed text :: later ∧
          Shows (if isRepetitive text cfg.repetitiveRatio then lastShown cfg past else text)) := by
  induction events using List.reverseRecOn with
  | nil => simp [lastShown]
  | append_singleton events event ih =>
    obtain ⟨best, lines⟩ := ih
    -- the last line of a longer history is either in the old part or the new event
    have split (P : List LineEvent → Str → Prop) :
        (∃ past text later, events ++ [event] = past ++ .completed text :: later ∧ P past text) ↔
          (∃ past text later, events = past ++ .completed text :: later ∧ P past text) ∨
            ∃ text, event = .completed text ∧ P events text := by
      constructor
      · rintro ⟨past, text, later, whole, holds⟩
        rcases List.eq_nil_or_concat later with rfl | ⟨later, last, rfl⟩
        · obtain ⟨rfl, same⟩ := List.append_inj' whole rfl
          exact Or.inr ⟨text, by simpa using same, holds⟩
        · have regroup : events ++ [event] = (past ++ .completed text :: later) ++ [last] := by
            simpa using whole
          exact Or.inl ⟨past, text, later, (List.append_inj' regroup rfl).1, holds⟩
      · rintro (⟨past, text, later, rfl, holds⟩ | ⟨text, rfl, holds⟩)
        · exact ⟨past, text, later ++ [event], by simp, holds⟩
        · exact ⟨events, text, [], by simp, holds⟩
    rw [List.foldl_append, List.foldl_cons, List.foldl_nil, split, ← lines]
    generalize hc : events.foldl (Collector.hear cfg.repetitiveRatio) {} = collector at best
    cases event with
    | textChanged text =>
      by_cases looping : isRepetitive text cfg.repetitiveRatio = true
      · refine ⟨?_, by simp [Collector.hear, Collector.onLineTextChanged, looping]⟩
        simp [Collector.hear, Collector.onLineTextChanged, looping, best, lastShown]
      · refine ⟨?_, by simp [Collector.hear, Collector.onLineTextChanged, looping]⟩
        simp [Collector.hear, Collector.onLineTextChanged, looping, lastShown]
    | completed text =>
      simp only [Collector.hear, Collector.onLineCompleted, best, LineEvent.completed.injEq,
        exists_eq_left']
      generalize (if isRepetitive text cfg.repetitiveRatio = true then lastShown cfg events
        else text) = line
      have sameBest : lastShown cfg (events ++ [.completed text]) = lastShown cfg events := by
        simp [lastShown]
      by_cases blank : line = []
      · simp [blank, best, sameBest, Shows]
      · simp [blank, sameBest, or_and_right, exists_or]

theorem transcribe_shows_iff (s : τ) (segment : SpeechSegment) :
    (∃ text, (transcribe cfg tr s segment.audio).1 = some text ∧ text ≠ []) ↔
      Closes cfg tr s segment := by
  have gone (h : (transcribe cfg tr s segment.audio).1 = none) :
      ¬∃ text, (transcribe cfg tr s segment.audio).1 = some text ∧ text ≠ [] := by
    simp [h]
  by_cases removed : (tr.removeAllListeners s).1 = true
  · refine iff_of_false (gone (by simp [transcribe, removed])) fun closes => ?_
    have := closes.removed
    simp [removed] at this
  by_cases added : (tr.addListener (tr.removeAllListeners s).2).1 = true
  · refine iff_of_false (gone (by simp [transcribe, removed, added])) fun closes => ?_
    have := closes.added
    simp [added] at this
  by_cases begun : (started tr s).raised = true
  · have begun' : (tr.start (tr.addListener (tr.removeAllListeners s).2).2).raised = true := begun
    refine iff_of_false (gone (by simp [transcribe, removed, added, begun'])) fun closes => ?_
    have := closes.begun
    simp [begun] at this
  have begun' : ¬(tr.start (tr.addListener (tr.removeAllListeners s).2).2).raised = true := begun
  cases decoded : pcmToFloat segment.audio with
  | none =>
    refine iff_of_false (gone (by simp [transcribe, removed, added, begun', decoded])) ?_
    intro closes
    obtain ⟨samples, same, _⟩ := closes.decoded
    simp [decoded] at same
  | some samples =>
    have text : (transcribe cfg tr s segment.audio).1 =
        if (fed cfg tr s samples).raised || (stopped cfg tr s samples).raised then none
        else some ((reported cfg tr s samples).foldl
          (Collector.hear cfg.repetitiveRatio) {}).text := by
      simp only [transcribe, if_neg removed, if_neg added, if_neg begun', decoded, stopped, fed,
        reported, started, listening]
      split <;> simp_all
    have closes : Closes cfg tr s segment ↔
        (fed cfg tr s samples).raised = false ∧ (stopped cfg tr s samples).raised = false ∧
          ∃ past text later, reported cfg tr s samples = past ++ .completed text :: later ∧
            Shows (if isRepetitive text cfg.repetitiveRatio then lastShown cfg past else text) := by
      constructor
      · intro closes
        obtain ⟨others, same, rest⟩ := closes.decoded
        obtain rfl := Option.some.inj (decoded.symm.trans same)
        exact rest
      · exact fun rest => ⟨by simpa using removed, by simpa using added, by simpa using begun,
          samples, decoded, rest⟩
    rw [text, closes]
    by_cases failed : ((fed cfg tr s samples).raised || (stopped cfg tr s samples).raised) = true
    · rw [if_pos failed]
      refine iff_of_false (by simp) fun ⟨quietFeed, quietStop, _⟩ => ?_
      simp [quietFeed, quietStop] at failed
    · have quiet : (fed cfg tr s samples).raised = false ∧
          (stopped cfg tr s samples).raised = false := by simpa using failed
      rw [if_neg failed, ← (foldl_hear cfg (reported cfg tr s samples)).2]
      have visible := strip_joinWords_eq_nil_iff
        ((reported cfg tr s samples).foldl (Collector.hear cfg.repetitiveRatio) {}).lines
      simp only [Option.some.injEq, exists_eq_left', Collector.text, Ne, visible, not_forall,
        not_not, quiet, true_and, exists_prop]

theorem transcribePartial_shows_iff (s : τ) (turn : Turn)
    (admitted : ¬cfg.partialMaxQueueDepth < turn.queueSize) :
    (∃ text, (transcribePartial cfg tr s turn.segment.audio).1 = some text ∧ text ≠ []) ↔
      Opens cfg tr s turn := by
  cases decoded : pcmToFloat turn.segment.audio with
  | none =>
    refine iff_of_false (by simp [transcribePartial, decoded]) fun opens => ?_
    obtain ⟨samples, lines, same, _⟩ := opens.decoded
    simp [decoded] at same
  | some samples =>
    cases answer : (tr.transcribeWithoutStreaming s samples cfg.sampleRate).1 with
    | none =>
      refine iff_of_false (by simp [transcribePartial, decoded, answer]) fun opens => ?_
      obtain ⟨others, lines, same, answered, _⟩ := opens.decoded
      obtain rfl := Option.some.inj (decoded.symm.trans same)
      simp [answer] at answered
    | some lines =>
      have kept : (∃ line ∈ lines.filter (· ≠ []), Shows line) ↔ ∃ line ∈ lines, Shows line := by
        constructor
        · rintro ⟨line, member, shows⟩
          exact ⟨line, (List.mem_filter.mp member).1, shows⟩
        · rintro ⟨line, member, shows⟩
          exact ⟨line, List.mem_filter.mpr ⟨member, by simpa using Shows.ne_nil shows⟩, shows⟩
      have visible := strip_joinWords_eq_nil_iff (lines.filter (· ≠ []))
      have text : (transcribePartial cfg tr s turn.segment.audio).1 =
          some (if isRepetitive (strip (joinWords (lines.filter (· ≠ []))))
            cfg.repetitiveRatio then [] else strip (joinWords (lines.filter (· ≠ [])))) := by
        simp [transcribePartial, decoded, answer]
      rw [text]
      constructor
      · rintro ⟨shown, same, nonempty⟩
        obtain rfl := Option.some.inj same
        by_cases looping : isRepetitive (strip (joinWords (lines.filter (· ≠ []))))
            cfg.repetitiveRatio = true
        · rw [if_pos looping] at nonempty
          exact absurd rfl nonempty
        · rw [if_neg looping, Ne, visible] at nonempty
          simp only [not_forall, not_not, exists_prop] at nonempty
          exact ⟨admitted, samples, lines, decoded, answer, kept.mp nonempty,
            by simpa using looping⟩
      · intro opens
        obtain ⟨others, answers, same, answered, shows, sound⟩ := opens.decoded
        obtain rfl := Option.some.inj (decoded.symm.trans same)
        obtain rfl := Option.some.inj (answer.symm.trans answered)
        refine ⟨_, rfl, ?_⟩
        simp only [sound, Bool.false_eq_true, if_false, Ne, visible, not_forall, not_not,
          exists_prop]
        exact kept.mpr shows

/-- A dequeued final publishes its closing event exactly when it closes. -/
theorem sttStep_final (state : SttState τ) (turn : Turn)
    (final : turn.segment.isPartial = false) :
    ((sttStep cfg tr state turn).2 ≠ [] ↔ Closes cfg tr state.transcriber turn.segment) := by
  rw [← transcribe_shows_iff]
  simp only [sttStep, handleSegment, final, Bool.false_eq_true, if_false]
  cases (transcribe cfg tr state.transcriber turn.segment.audio).1 with
  | none => simp
  | some text => by_cases blank : text = [] <;> simp [blank]

/-- A dequeued partial publishes an event exactly when it opens. -/
theorem sttStep_partial (state : SttState τ) (turn : Turn)
    (throwaway : turn.segment.isPartial = true) :
    ((sttStep cfg tr state turn).2 ≠ [] ↔ Opens cfg tr state.transcriber turn) := by
  simp only [sttStep, handleSegment, throwaway, if_true, handlePartial]
  by_cases shed : cfg.partialMaxQueueDepth < turn.queueSize
  · rw [if_pos shed]
    exact iff_of_false (by simp) fun opens => opens.admitted shed
  · rw [if_neg shed, ← transcribePartial_shows_iff cfg tr state.transcriber turn shed]
    cases (transcribePartial cfg tr state.transcriber turn.segment.audio).1 with
    | none => simp
    | some text => by_cases blank : text = [] <;> simp [blank]

/-- In a list whose earlier elements relate to the later ones, two unrelated elements
stand in one place. -/
theorem split_unique {α : Type*} {R : α → α → Prop} {l before before' after after' : List α}
    {x y : α} (ordered : l.Pairwise R) (here : l = before ++ x :: after)
    (there : l = before' ++ y :: after') (xy : ¬R x y) (yx : ¬R y x) :
    before = before' ∧ x = y := by
  subst here
  rcases List.append_eq_append_iff.mp there with ⟨m, rfl, rest⟩ | ⟨m, rfl, rest⟩
  · cases m with
    | nil => exact ⟨(List.append_nil _).symm, (List.cons_eq_cons.mp rest).1⟩
    | cons z m =>
      obtain ⟨rfl, rfl⟩ := List.cons_eq_cons.mp rest
      exact absurd (List.rel_of_pairwise_cons (List.pairwise_append.mp ordered).2.1 (by simp)) xy
  · cases m with
    | nil => exact ⟨List.append_nil _, (List.cons_eq_cons.mp rest).1.symm⟩
    | cons z m =>
      obtain ⟨rfl, rfl⟩ := List.cons_eq_cons.mp rest
      exact absurd ((List.pairwise_append.mp ordered).2.2 y (by simp) x (by simp)) yx

theorem length_le_one {α : Type*} {R : α → α → Prop} {l : List α} (ordered : l.Pairwise R)
    (unrelated : ∀ a ∈ l, ∀ b ∈ l, ¬R a b) : l.length ≤ 1 := by
  cases ordered with
  | nil => simp
  | @cons a rest before later =>
    have empty : rest = [] := List.eq_nil_iff_forall_not_mem.mpr fun b member =>
      unrelated a (by simp) b (by simp [member]) (before b member)
    simp [empty]

/-- Of one id at most one final is dequeued, after all its partials. -/
def Shaped (turns : List Turn) : Prop :=
  turns.Pairwise fun a b => a.segment.segmentId = b.segment.segmentId → a.segment.isPartial = true

/-- The transcriber as a run of turns leaves it. -/
def transcriberAfter (state : SttState τ) (turns : List Turn) : τ :=
  (outputs (sttStep cfg tr) state turns).1.transcriber

/-- If an event of the id was not final and the id's final was dequeued, then exactly
one final event of the id came out. -/
def ClosedId (turns : List Turn) (events : List TranscriptEvent) (id : Str) : Prop :=
  (∃ e ∈ events, e.segmentId = id ∧ e.isFinal = false) →
    (∃ t ∈ turns, t.segment.segmentId = id ∧ t.segment.isPartial = false) →
    (events.filter fun e => e.segmentId = id ∧ e.isFinal = true).length = 1

/-- A final of the id closes at its turn, if a partial of the id opened at its own. -/
def ClosesWhatItOpens (state : SttState τ) (turns : List Turn) (id : Str) : Prop :=
  (∃ past turn later, turns = past ++ turn :: later ∧ turn.segment.segmentId = id ∧
    turn.segment.isPartial = true ∧ Opens cfg tr (transcriberAfter cfg tr state past) turn) →
  ∀ past turn later, turns = past ++ turn :: later → turn.segment.segmentId = id →
    turn.segment.isPartial = false →
    Closes cfg tr (transcriberAfter cfg tr state past) turn.segment

section Runs

variable (state : SttState τ) {turns : List Turn} (id : Str)

/-- Which turns of an id publish an event of a kind. -/
theorem event_iff (final : Bool) :
    (∃ e ∈ (outputs (sttStep cfg tr) state turns).2, e.segmentId = id ∧ e.isFinal = final) ↔
      ∃ past turn later, turns = past ++ turn :: later ∧ turn.segment.segmentId = id ∧
        turn.segment.isPartial = !final ∧
        (sttStep cfg tr (outputs (sttStep cfg tr) state past).1 turn).2 ≠ [] := by
  constructor
  · rintro ⟨e, member, rfl, rfl⟩
    obtain ⟨past, turn, later, whole, made⟩ := (mem_outputs_iff _).mp member
    obtain ⟨text, published⟩ := sttStep_events cfg tr (outputs (sttStep cfg tr) state past).1 turn
    rw [published] at made
    obtain ⟨shown, _, rfl⟩ := List.mem_map.mp made
    exact ⟨past, turn, later, whole, rfl, by simp, List.ne_nil_of_mem (published ▸ made)⟩
  · rintro ⟨past, turn, later, whole, rfl, kind, some_event⟩
    obtain ⟨text, published⟩ := sttStep_events cfg tr (outputs (sttStep cfg tr) state past).1 turn
    obtain ⟨e, made⟩ := List.exists_mem_of_ne_nil _ some_event
    refine ⟨e, (mem_outputs_iff _).mpr ⟨past, turn, later, whole, made⟩, ?_⟩
    rw [published] at made
    obtain ⟨shown, _, rfl⟩ := List.mem_map.mp made
    exact ⟨rfl, by simp [kind]⟩

theorem finals_length_le (shaped : Shaped turns) :
    ((outputs (sttStep cfg tr) state turns).2.filter
      fun e => e.segmentId = id ∧ e.isFinal = true).length ≤ 1 := by
  have tags : (turns.map fun t => (t.segment.segmentId, !t.segment.isPartial)).Pairwise
      fun a b => a.1 = b.1 → a.2 = false := by
    rw [List.pairwise_map]
    exact shaped.imp fun once same => by simp [once same]
  have events := List.pairwise_map.mp (tags.sublist (events_sublist_turns cfg tr state turns))
  refine length_le_one (events.filter fun e => decide (e.segmentId = id ∧ e.isFinal = true)) ?_
  intro a ha b hb apart
  simp only [List.mem_filter, decide_eq_true_eq] at ha hb
  have notFinal := apart (ha.2.1.trans hb.2.1.symm)
  simp [ha.2.2] at notFinal

end Runs

/-- A shown id is closed exactly when its final closes what its partials opened. -/
theorem closed_iff_closes_what_it_opens (state : SttState τ) {turns : List Turn}
    (shaped : Shaped turns) (id : Str) :
    ClosedId turns (outputs (sttStep cfg tr) state turns).2 id ↔
      ClosesWhatItOpens cfg tr state turns id := by
  have opened : (∃ e ∈ (outputs (sttStep cfg tr) state turns).2,
      e.segmentId = id ∧ e.isFinal = false) ↔
      ∃ past turn later, turns = past ++ turn :: later ∧ turn.segment.segmentId = id ∧
        turn.segment.isPartial = true ∧
        Opens cfg tr (transcriberAfter cfg tr state past) turn := by
    rw [event_iff]
    refine exists_congr fun past => exists_congr fun turn => exists_congr fun later =>
      and_congr_right fun _ => and_congr_right fun _ => and_congr_right fun kind => ?_
    exact sttStep_partial cfg tr _ turn kind
  have closed : (∃ e ∈ (outputs (sttStep cfg tr) state turns).2,
      e.segmentId = id ∧ e.isFinal = true) ↔
      ∃ past turn later, turns = past ++ turn :: later ∧ turn.segment.segmentId = id ∧
        turn.segment.isPartial = false ∧
        Closes cfg tr (transcriberAfter cfg tr state past) turn.segment := by
    rw [event_iff]
    refine exists_congr fun past => exists_congr fun turn => exists_congr fun later =>
      and_congr_right fun _ => and_congr_right fun _ => and_congr_right fun kind => ?_
    exact sttStep_final cfg tr _ turn kind
  have one : ((outputs (sttStep cfg tr) state turns).2.filter
      fun e => e.segmentId = id ∧ e.isFinal = true).length = 1 ↔
      ∃ e ∈ (outputs (sttStep cfg tr) state turns).2, e.segmentId = id ∧ e.isFinal = true := by
    have few := finals_length_le cfg tr state id shaped
    have positive := List.length_pos_iff_exists_mem (l :=
      (outputs (sttStep cfg tr) state turns).2.filter
        fun e => decide (e.segmentId = id ∧ e.isFinal = true))
    simp only [List.mem_filter, decide_eq_true_eq] at positive
    rw [← positive]
    omega
  unfold ClosedId ClosesWhatItOpens
  rw [opened, one, closed]
  refine imp_congr_right fun _ => ?_
  constructor
  · intro settle past turn later whole sameId final
    obtain ⟨past', turn', later', whole', sameId', final', closes⟩ :=
      settle ⟨turn, by simp [whole], sameId, final⟩
    obtain ⟨rfl, rfl⟩ := split_unique shaped whole whole'
      (by simp [sameId, sameId', final]) (by simp [sameId, sameId', final'])
    exact closes
  · rintro settle ⟨turn, member, sameId, final⟩
    obtain ⟨past, later, whole⟩ := List.append_of_mem member
    exact ⟨past, turn, later, whole, sameId, final, settle past turn later whole sameId final⟩

section Unclosed

instance (turns : List Turn) (events : List TranscriptEvent) (id : Str) :
    Decidable (ClosedId turns events id) := by
  unfold ClosedId
  infer_instance

/-- A model that reads a word in every prefix and completes no line in a session. -/
def lineless : Transcriber Unit where
  removeAllListeners _ := (false, ())
  addListener _ := (false, ())
  start _ := ⟨false, [], ()⟩
  addAudio _ _ _ := ⟨false, [], ()⟩
  stop _ := ⟨false, [], ()⟩
  transcribeWithoutStreaming _ _ _ := (some [['a']], ())

/-- One partial of a segment and the segment's final. -/
def shownOnce : List Turn :=
  [{ segment := ⟨['r'], 0, 1, [1, 0], ['i'], true⟩ },
    { segment := ⟨['r'], 0, 2, [1, 0, 1, 0], ['i'], false⟩ }]

theorem shownOnce_closed_iff :
    ClosedId shownOnce (outputs (sttStep {} lineless) { transcriber := () } shownOnce).2 ['i'] ↔
      ClosesWhatItOpens {} lineless { transcriber := () } shownOnce ['i'] :=
  closed_iff_closes_what_it_opens {} lineless { transcriber := () }
    (by unfold Shaped shownOnce; decide) ['i']

theorem shownOnce_not_closed :
    ¬ClosedId shownOnce
      (outputs (sttStep {} lineless) { transcriber := () } shownOnce).2 ['i'] := by
  decide +kernel

end Unclosed

end EdgeVoice.TranscriptClosure
