import EdgeVoice.StepSystem
import EdgeVoice.Supervisor

/-! The heartbeat of an STT child. The bridge thread samples the CPU counter and
publishes the clock while it advances, and the worker's dequeue stamp otherwise; the
parent reads what was published last. Start-up, dequeues and the bridge's own read,
sample and write are steps of one interleaving over a clock that never goes back. -/

namespace EdgeVoice.SttHeartbeat
open StepSystem Supervisor

/-- `stt_child_main` up to its run loop. -/
inductive StartAt
  | loading
  | built
  | seeded
  | ready
deriving DecidableEq

/-- Where `_bridge` stands; the counter of the last tick is kept, a failed read too. -/
inductive BridgeAt
  | absent
  | waiting (lastTicks : Option ℕ)
  | compared (progress : Bool) (ticks : Option ℕ)
  | sampled (progress : Bool) (ticks : Option ℕ) (at_ value stamp : ℚ)
deriving DecidableEq

/-- A published tick: whether it saw the counter advance, when it sampled, and the
worker's stamp at that time. -/
structure Tick where
  progress : Bool
  at_ : ℚ
  stamp : ℚ
deriving DecidableEq

def Tick.value (t : Tick) : ℚ := if t.progress then t.at_ else t.stamp

/-- The child, with the ticks it published and the dequeue times so far. -/
structure Child where
  clock : ℚ
  start : StartAt := .loading
  workerActivity : ℚ := 0
  heartbeat : ℚ := 0
  bridge : BridgeAt := .absent
  seededAt : ℚ := 0
  published : List Tick := []
  dequeues : List ℚ := []
deriving DecidableEq

inductive ChildEvent
  | tick (dt : ℚ)
  | build
  | seed
  | announce
  | bridgeStart (ticks : Option ℕ)
  | dequeue
  | bridgeRead (ticks : Option ℕ)
  | bridgeSample
  | bridgeWrite
deriving DecidableEq

/-- `ticks is not None and last_ticks is not None and ticks > last_ticks`. -/
def advanced (lastTicks ticks : Option ℕ) : Bool :=
  match lastTicks, ticks with
  | some last, some now => last < now
  | _, _ => false

def childStep (s : Child) : ChildEvent → Option Child
  | .tick dt => if 0 ≤ dt then some { s with clock := s.clock + dt } else none
  | .build =>
    if s.start = .loading then some { s with start := .built, workerActivity := s.clock } else none
  | .seed =>
    if s.start = .built then
      some { s with start := .seeded, heartbeat := s.clock, seededAt := s.clock }
    else none
  | .announce => if s.start = .seeded then some { s with start := .ready } else none
  | .bridgeStart ticks =>
    if s.start = .ready ∧ s.bridge = .absent then some { s with bridge := .waiting ticks } else none
  | .dequeue =>
    if s.start = .ready then
      some { s with workerActivity := s.clock, dequeues := s.dequeues ++ [s.clock] }
    else none
  | .bridgeRead ticks =>
    match s.bridge with
    | .waiting lastTicks => some { s with bridge := .compared (advanced lastTicks ticks) ticks }
    | _ => none
  | .bridgeSample =>
    match s.bridge with
    | .compared progress ticks =>
      some { s with
        bridge := .sampled progress ticks s.clock (if progress then s.clock else s.workerActivity)
          s.workerActivity }
    | _ => none
  | .bridgeWrite =>
    match s.bridge with
    | .sampled progress ticks at_ value stamp =>
      some { s with
        heartbeat := value, bridge := .waiting ticks
        published := s.published ++ [⟨progress, at_, stamp⟩] }
    | _ => none

/-- `STTProcessHandle.last_activity`, as read in the parent. -/
def lastActivity (s : Child) : ℚ :=
  if s.start = .ready then (if 0 < s.heartbeat then s.heartbeat else s.clock) else s.clock

/-- What the heartbeat was last set to: the latest tick's value, or the seed. -/
def latest (s : Child) : ℚ := (s.published.getLast?.map Tick.value).getD s.seededAt

/-- A stamp is at least every dequeue before the time it was read. -/
def Fresh (dequeues : List ℚ) (at_ stamp : ℚ) : Prop := ∀ d ∈ dequeues, d < at_ → d ≤ stamp

/-- What the bridge has sampled is the clock or a fresh stamp. -/
structure Beating (s : Child) : Prop where
  dequeued : ∀ d ∈ s.dequeues, d ≤ s.clock ∧ d ≤ s.workerActivity
  quiet : s.start = .loading ∨ s.start = .built → s.published = [] ∧ s.bridge = .absent
  heartbeat : s.start = .seeded ∨ s.start = .ready → s.heartbeat = latest s
  sampled : ∀ progress ticks at_ value stamp, s.bridge = .sampled progress ticks at_ value stamp →
    at_ ≤ s.clock ∧ value = (Tick.mk progress at_ stamp).value ∧ Fresh s.dequeues at_ stamp
  published : ∀ t ∈ s.published, t.at_ ≤ s.clock ∧ Fresh s.dequeues t.at_ t.stamp

theorem Fresh.dequeue {dequeues : List ℚ} {at_ stamp clock : ℚ} (h : Fresh dequeues at_ stamp)
    (past : at_ ≤ clock) : Fresh (dequeues ++ [clock]) at_ stamp := by
  intro d member before
  rcases List.mem_append.mp member with old | new
  · exact h d old before
  · have same := List.mem_singleton.mp new
    linarith

theorem childStep_clock {s s' : Child} {event : ChildEvent} (h : childStep s event = some s') :
    s.clock ≤ s'.clock := by
  cases event <;> simp only [childStep] at h <;> (try split at h) <;> cases h <;> simp_all

theorem run_clock {s s' : Child} {events : List ChildEvent}
    (h : run childStep s events = some s') : s.clock ≤ s'.clock :=
  run_invariant childStep (I := fun m => s.clock ≤ m.clock) (le_refl _)
    (fun _ _ _ before step => before.trans (childStep_clock step)) h

/-- The bridge exists only after the child was seeded. -/
theorem Beating.bridged {s : Child} (h : Beating s) (present : s.bridge ≠ .absent) :
    ¬(s.start = .loading ∨ s.start = .built) :=
  fun early => present (h.quiet early).2

theorem Beating.step {s s' : Child} {event : ChildEvent} (h : Beating s)
    (next : childStep s event = some s') : Beating s' := by
  have bridged := h.bridged
  obtain ⟨dequeued, quiet, heartbeat, sampled, published⟩ := h
  cases event with
  | tick dt =>
    simp only [childStep] at next
    split at next <;> cases next
    rename_i forward
    have later : s.clock ≤ s.clock + dt := by linarith
    refine ⟨fun d member => ?_, quiet, heartbeat, fun progress ticks at_ value stamp held => ?_,
      fun t member => ?_⟩
    · exact ⟨(dequeued d member).1.trans later, (dequeued d member).2⟩
    · have known := sampled progress ticks at_ value stamp held
      exact ⟨known.1.trans later, known.2⟩
    · have known := published t member
      exact ⟨known.1.trans later, known.2⟩
  | build =>
    simp only [childStep] at next
    split at next <;> cases next
    rename_i loading
    have nothing := quiet (Or.inl loading)
    refine ⟨fun d member => ?_, fun _ => nothing, by simp, sampled, published⟩
    exact ⟨(dequeued d member).1, (dequeued d member).1⟩
  | seed =>
    simp only [childStep] at next
    split at next <;> cases next
    rename_i built
    have nothing := quiet (Or.inr built)
    exact ⟨dequeued, by simp, fun _ => by simp [latest, nothing.1], sampled, published⟩
  | announce =>
    simp only [childStep] at next
    split at next <;> cases next
    rename_i seeded
    exact ⟨dequeued, by simp, fun _ => heartbeat (Or.inl seeded), sampled, published⟩
  | bridgeStart ticks =>
    simp only [childStep] at next
    split at next <;> cases next
    rename_i ready
    exact ⟨dequeued, by simp [ready.1], heartbeat, by simp, published⟩
  | dequeue =>
    simp only [childStep] at next
    split at next <;> cases next
    rename_i ready
    refine ⟨fun d member => ?_, by simp [ready], heartbeat,
      fun progress ticks at_ value stamp held => ?_, fun t member => ?_⟩
    · rcases List.mem_append.mp member with old | new
      · exact ⟨(dequeued d old).1, (dequeued d old).1⟩
      · have same := List.mem_singleton.mp new
        exact ⟨same.le, same.le⟩
    · have known := sampled progress ticks at_ value stamp held
      exact ⟨known.1, known.2.1, known.2.2.dequeue known.1⟩
    · have known := published t member
      exact ⟨known.1, known.2.dequeue known.1⟩
  | bridgeRead ticks =>
    simp only [childStep] at next
    split at next <;> cases next
    rename_i lastTicks waiting
    exact ⟨dequeued, fun early => absurd early (bridged (by simp [waiting])), heartbeat, by simp,
      published⟩
  | bridgeSample =>
    simp only [childStep] at next
    split at next <;> cases next
    rename_i progress ticks compared
    refine ⟨dequeued, fun early => absurd early (bridged (by simp [compared])), heartbeat, ?_,
      published⟩
    intro progress' ticks' at_ value stamp held
    cases held
    exact ⟨le_refl _, rfl, fun d member _ => (dequeued d member).2⟩
  | bridgeWrite =>
    simp only [childStep] at next
    split at next <;> cases next
    rename_i progress ticks at_ value stamp held
    have known := sampled progress ticks at_ value stamp held
    refine ⟨dequeued, fun early => absurd early (bridged (by simp [held])), fun _ => ?_, by simp,
      fun t member => ?_⟩
    · rw [known.2.1]
      simp [latest]
    · rcases List.mem_append.mp member with old | new
      · exact published t old
      · rw [List.mem_singleton.mp new]
        exact ⟨known.1, known.2.2⟩

/-- A loading child has not beaten yet. -/
theorem beating_loading (startedAt : ℚ) : Beating { clock := startedAt } :=
  ⟨by simp, by simp, by simp, by simp, by simp⟩

theorem Beating.run {startedAt : ℚ} {s : Child} {events : List ChildEvent}
    (h : run childStep { clock := startedAt } events = some s) : Beating s :=
  run_invariant childStep (beating_loading startedAt) (fun _ _ _ => Beating.step) h

variable (cfg : SupervisorConfig)

/-- A child that reads as stalled is ready and shows its heartbeat. -/
theorem lastActivity_stalled {s : Child} {now : ℚ} (past : now ≤ s.clock)
    (stalled : cfg.stallTimeoutS < now - lastActivity s) :
    s.start = .ready ∧ lastActivity s = s.heartbeat := by
  have positive := cfg.stallTimeoutS_pos
  unfold lastActivity at stalled ⊢
  by_cases ready : s.start = .ready
  · by_cases beat : 0 < s.heartbeat
    · exact ⟨ready, by simp [ready, beat]⟩
    · simp only [ready, beat, if_true, if_false] at stalled
      linarith
  · simp only [ready, if_false] at stalled
    linarith

/-- The heartbeat is what the latest tick published. So a scan that finds the child
stalled, its clock read before the heartbeat, finds that the latest tick saw no
advance within the timeout and that nothing was dequeued between the two. -/
theorem stalled_only_after_latest_tick {startedAt : ℚ} {past later : List ChildEvent}
    {m s : Child} (begun : run childStep { clock := startedAt } past = some m)
    (read : run childStep m later = some s) :
    (s.start = .ready → s.heartbeat = latest s) ∧
      (cfg.stallTimeoutS < m.clock - lastActivity s →
        (s.published = [] → cfg.stallTimeoutS < m.clock - s.seededAt) ∧
        ∀ t ∈ s.published.getLast?,
          (t.progress = true → cfg.stallTimeoutS < m.clock - t.at_) ∧
            ∀ d ∈ s.dequeues, d < t.at_ → cfg.stallTimeoutS < m.clock - d) := by
  have whole : run childStep { clock := startedAt } (past ++ later) = some s := by
    simp [run_append, begun, read]
  have beating := Beating.run whole
  refine ⟨fun ready => beating.heartbeat (Or.inr ready), fun stalled => ?_⟩
  obtain ⟨ready, shown⟩ := lastActivity_stalled cfg (run_clock read) stalled
  rw [shown, beating.heartbeat (Or.inr ready), latest] at stalled
  constructor
  · intro nothing
    simpa [nothing] using stalled
  · intro t last
    rw [Option.mem_def.mp last, Option.map_some, Option.getD_some, Tick.value] at stalled
    have fresh := (beating.published t (List.mem_of_mem_getLast? last)).2
    cases progress : t.progress with
    | true =>
      simp only [progress, if_true] at stalled
      refine ⟨fun _ => stalled, fun d member before => ?_⟩
      linarith
    | false =>
      simp only [progress, Bool.false_eq_true, if_false] at stalled
      refine ⟨by simp, fun d member before => ?_⟩
      have stamped := fresh d member before
      linarith

section FlatTick

def bridgeTick (ticks : ℕ) : List ChildEvent :=
  [.bridgeRead (some ticks), .bridgeSample, .bridgeWrite]

/-- One segment is dequeued at 1 s; the counter advances up to the tick at 13 s and is
flat at the next. -/
def flatTick : List ChildEvent :=
  [.tick 1, .build, .seed, .announce, .bridgeStart (some 0), .dequeue, .tick 4] ++ bridgeTick 5 ++
    [.tick 4] ++ bridgeTick 9 ++ [.tick 4] ++ bridgeTick 14 ++ [.tick 1] ++ bridgeTick 14

theorem flatTick_stalled_only_after_latest :
    ∃ s, run childStep { clock := 0 } flatTick = some s ∧
      ∀ t ∈ s.published.getLast?, ∀ d ∈ s.dequeues, d < t.at_ → (10 : ℚ) < s.clock - d := by
  have begun : run childStep { clock := 0 } flatTick = some _ := rfl
  have stalled := (stalled_only_after_latest_tick {} begun (run_nil childStep _)).2
    (by decide +kernel)
  exact ⟨_, begun, fun t last => (stalled.2 t last).2⟩

/-- The counter advanced one second before the scan that finds the child stalled. -/
theorem flatTick_stalled_while_decoding :
    ∃ s, run childStep { clock := 0 } flatTick = some s ∧
      (10 : ℚ) < s.clock - lastActivity s ∧
      ∃ t ∈ s.published, t.progress = true ∧ s.clock - t.at_ ≤ 10 ∧ s.heartbeat < t.at_ := by
  refine ⟨_, rfl, ?_, ⟨true, 13, 1⟩, ?_⟩
  · decide +kernel
  · decide +kernel

end FlatTick

end EdgeVoice.SttHeartbeat
