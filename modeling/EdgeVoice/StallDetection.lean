import EdgeVoice.StepSystem
import EdgeVoice.Supervisor

/-! The stall check against a running worker. ChannelRouter, VADWorker and STTWorker
share one loop: get, stamp `last_activity`, handle. A scan reads the clock, then the
queue, then the stamp, and anything may happen in between. The stamp does not move
while the worker polls an empty queue, so an idle gap counts as time without progress
once an item is put: the check fires exactly when an item can be found waiting more
than the timeout after the last stamp. -/

namespace EdgeVoice.StallDetection
open StepSystem Supervisor

inductive WorkerAt
  | polling
  | got (since : ℚ)
  | handling (since : ℚ)
deriving DecidableEq

/-- When the item in hand was dequeued. -/
def WorkerAt.since : WorkerAt → Option ℚ
  | .polling => none
  | .got since => some since
  | .handling since => some since

/-- A worker and its input queue, as the put times of the waiting items. -/
structure Stage where
  clock : ℚ := 0
  queue : List ℚ := []
  worker : WorkerAt := .polling
  lastActivity : ℚ := 0
deriving DecidableEq

inductive WorkEvent
  | tick (dt : ℚ)
  | put
  | dequeue
  | stamp
  | finish
deriving DecidableEq

def workStep (s : Stage) : WorkEvent → Option Stage
  | .tick dt => if 0 ≤ dt then some { s with clock := s.clock + dt } else none
  | .put => some { s with queue := s.queue ++ [s.clock] }
  | .dequeue =>
    match s.worker, s.queue with
    | .polling, _ :: rest => some { s with queue := rest, worker := .got s.clock }
    | _, _ => none
  | .stamp =>
    match s.worker with
    | .got since => some { s with worker := .handling since, lastActivity := s.clock }
    | _ => none
  | .finish =>
    match s.worker with
    | .handling _ => some { s with worker := .polling }
    | _ => none

/-- How far a scan of the target has got: its clock, then whether input is pending. -/
inductive ScanAt
  | idle
  | begun (now : ℚ)
  | looked (now : ℚ) (pending : Bool)
deriving DecidableEq

inductive ScanEvent
  | start
  | readPending
  | readActivity
deriving DecidableEq

/-- A stage under supervision; `stalls` counts the reports made so far. -/
structure Watched where
  stage : Stage := {}
  scan : ScanAt := .idle
  stalls : ℕ := 0
deriving DecidableEq

variable (cfg : SupervisorConfig)

/-- The target is alive and not stopping throughout. -/
def target (s : Stage) (pending : Bool) : Readings :=
  { isStopping := false, isAlive := true, inputPending := pending, lastActivity := s.lastActivity }

def scanStep (w : Watched) : ScanEvent → Option Watched
  | .start =>
    match w.scan with
    | .idle => some { w with scan := .begun w.stage.clock }
    | _ => none
  | .readPending =>
    match w.scan with
    | .begun now => some { w with scan := .looked now (w.stage.queue ≠ []) }
    | _ => none
  | .readActivity =>
    match w.scan with
    | .looked now pending =>
      some { w with
        scan := .idle
        stalls := w.stalls +
          (if (failureReason cfg true (target w.stage pending) now).isSome then 1 else 0) }
    | _ => none

/-- The worker, its producer and the clock on one side, scans on the other. -/
def watchedStep (w : Watched) : WorkEvent ⊕ ScanEvent → Option Watched
  | .inl event => (workStep w.stage event).map fun stage => { w with stage := stage }
  | .inr event => scanStep cfg w event

/-- An interleaving without its scans. -/
def schedule (events : List (WorkEvent ⊕ ScanEvent)) : List WorkEvent :=
  events.filterMap Sum.getLeft?

@[simp] theorem schedule_append (events later : List (WorkEvent ⊕ ScanEvent)) :
    schedule (events ++ later) = schedule events ++ schedule later := by
  simp [schedule]

@[simp] theorem schedule_work (events : List WorkEvent) :
    schedule (events.map Sum.inl) = events := by
  simp [schedule, Function.comp_def]

@[simp] theorem schedule_scan (events : List ScanEvent) :
    schedule (events.map Sum.inr) = [] := by
  simp [schedule, Function.comp_def]

/-- Nothing has waited longer than `d`, and the item in hand is no older than the
stall timeout. -/
def KeepsUp (d : ℚ) (s : Stage) : Prop :=
  (∀ putAt ∈ s.queue, s.clock - putAt ≤ d) ∧
    ∀ since ∈ s.worker.since, s.clock - since ≤ cfg.stallTimeoutS

instance (d : ℚ) : DecidablePred (KeepsUp cfg d) := by
  intro s
  unfold KeepsUp
  infer_instance

/-- The worker keeps up at every moment of the schedule. -/
def Prompt (d : ℚ) (events : List WorkEvent) : Prop :=
  ∀ past ∈ events.inits, ∀ s ∈ run workStep {} past, KeepsUp cfg d s

instance (d : ℚ) (events : List WorkEvent) : Decidable (Prompt cfg d events) := by
  unfold Prompt
  infer_instance

/-- No scan reports a stall, however scans are interleaved with the schedule. -/
def NeverReported (events : List WorkEvent) : Prop :=
  ∀ interleaved w, schedule interleaved <+: events →
    run (watchedStep cfg) {} interleaved = some w → w.stalls = 0

/-- Whenever an item waits, the worker last took one no longer than the timeout ago. -/
def NeverLate (events : List WorkEvent) : Prop :=
  ∀ past s, past <+: events → run workStep {} past = some s → s.queue ≠ [] →
    s.clock - s.lastActivity ≤ cfg.stallTimeoutS

variable {cfg}

theorem failureReason_target (s : Stage) (pending : Bool) (now : ℚ) :
    (failureReason cfg true (target s pending) now).isSome = true ↔
      pending = true ∧ cfg.stallTimeoutS < now - s.lastActivity := by
  cases pending with
  | false => simp [failureReason, target]
  | true => by_cases late : cfg.stallTimeoutS < now - s.lastActivity <;>
      simp [failureReason, target, late]

/-- The clock never goes back, and the stamp follows it. -/
theorem workStep_times {s s' : Stage} {event : WorkEvent} (h : workStep s event = some s')
    (stamped : s.lastActivity ≤ s.clock) :
    s.clock ≤ s'.clock ∧ s.lastActivity ≤ s'.lastActivity ∧ s'.lastActivity ≤ s'.clock := by
  cases event with
  | tick dt =>
    simp only [workStep] at h
    split at h <;> cases h
    rename_i forward
    exact ⟨by simpa using forward, le_refl _, by simp only; linarith⟩
  | put =>
    cases h
    exact ⟨le_refl _, le_refl _, stamped⟩
  | dequeue =>
    simp only [workStep] at h
    split at h <;> cases h
    exact ⟨le_refl _, le_refl _, stamped⟩
  | stamp =>
    simp only [workStep] at h
    split at h <;> cases h
    exact ⟨le_refl _, stamped, le_refl _⟩
  | finish =>
    simp only [workStep] at h
    split at h <;> cases h
    exact ⟨le_refl _, le_refl _, stamped⟩

/-- At some moment of the schedule an item waited more than the timeout after the
last stamp. -/
def Late (cfg : SupervisorConfig) (events : List WorkEvent) : Prop :=
  ∃ past s, past <+: events ∧ run workStep {} past = some s ∧ s.queue ≠ [] ∧
    cfg.stallTimeoutS < s.clock - s.lastActivity

theorem Late.mono {events later : List WorkEvent} (h : Late cfg events)
    (longer : events <+: later) : Late cfg later := by
  obtain ⟨past, s, before, rest⟩ := h
  exact ⟨past, s, before.trans longer, rest⟩

/-- What a scan in progress has seen: its clock is past, and if it saw an item waiting
there was such a moment, no earlier than its clock. -/
def Seen (events : List WorkEvent) (stage : Stage) : ScanAt → Prop
  | .idle => True
  | .begun now => now ≤ stage.clock
  | .looked now pending => pending = true →
    ∃ past s, past <+: events ∧ run workStep {} past = some s ∧ s.queue ≠ [] ∧
      now ≤ s.clock ∧ s.lastActivity ≤ stage.lastActivity

/-- A watched run is a run of its schedule, and has reported only what was late. -/
structure Watching (cfg : SupervisorConfig) (events : List WorkEvent) (w : Watched) : Prop where
  ran : run workStep {} events = some w.stage
  stamped : w.stage.lastActivity ≤ w.stage.clock
  seen : Seen events w.stage w.scan
  reported : w.stalls ≠ 0 → Late cfg events

theorem Watching.work {events : List WorkEvent} {w : Watched} (h : Watching cfg events w)
    {event : WorkEvent} {stage : Stage} (step : workStep w.stage event = some stage) :
    Watching cfg (events ++ [event]) { w with stage := stage } := by
  obtain ⟨clock, activity, stamped⟩ := workStep_times step h.stamped
  have longer : events <+: events ++ [event] := List.prefix_append _ _
  refine ⟨(run_concat _ _ _ _ _).mpr ⟨w.stage, h.ran, step⟩, stamped, ?_,
    fun stalled => (h.reported stalled).mono longer⟩
  have seen := h.seen
  cases scan : w.scan with
  | idle => trivial
  | begun now =>
    rw [scan] at seen
    exact le_trans seen clock
  | looked now pending =>
    rw [scan] at seen
    intro saw
    obtain ⟨past, s, before, ran, waiting, clock, stamp⟩ := seen saw
    exact ⟨past, s, before.trans longer, ran, waiting, clock, stamp.trans activity⟩

theorem Watching.scanned {events : List WorkEvent} {w w' : Watched} (h : Watching cfg events w)
    {event : ScanEvent} (step : scanStep cfg w event = some w') : Watching cfg events w' := by
  obtain ⟨ran, stamped, seen, reported⟩ := h
  cases event with
  | start =>
    simp only [scanStep] at step
    split at step <;> cases step
    exact ⟨ran, stamped, le_refl _, reported⟩
  | readPending =>
    simp only [scanStep] at step
    split at step <;> cases step
    rename_i now scan
    rw [scan] at seen
    refine ⟨ran, stamped, fun saw => ?_, reported⟩
    exact ⟨events, w.stage, List.prefix_rfl, ran, by simpa using saw, seen, le_refl _⟩
  | readActivity =>
    simp only [scanStep] at step
    split at step <;> cases step
    rename_i now pending scan
    rw [scan] at seen
    refine ⟨ran, stamped, trivial, fun stalled => ?_⟩
    by_cases fired : (failureReason cfg true (target w.stage pending) now).isSome = true
    · obtain ⟨saw, old⟩ := (failureReason_target w.stage pending now).mp fired
      obtain ⟨past, s, before, ran', waiting, clock, stamp⟩ := seen saw
      exact ⟨past, s, before, ran', waiting, by linarith⟩
    · exact reported (by simpa [fired] using stalled)

theorem Watching.run {interleaved : List (WorkEvent ⊕ ScanEvent)} {w : Watched}
    (h : run (watchedStep cfg) {} interleaved = some w) :
    Watching cfg (schedule interleaved) w := by
  refine run_history (watchedStep cfg) (I := fun es w => Watching cfg (schedule es) w)
    ⟨rfl, le_refl _, by simp [Seen], by simp⟩ ?_ h
  intro past m event m' before step
  cases event with
  | inl event =>
    simp only [watchedStep, Option.map_eq_some_iff] at step
    obtain ⟨stage, worked, rfl⟩ := step
    have schedules : schedule (past ++ [.inl event]) = schedule past ++ [event] := by
      rw [schedule_append]
      rfl
    rw [schedules]
    exact before.work worked
  | inr event =>
    have schedules : schedule (past ++ [.inr event]) = schedule past := by
      rw [schedule_append]
      exact List.append_nil _
    rw [schedules]
    exact before.scanned step

/-- A schedule alone, watched without any scan. -/
theorem run_unscanned {events : List WorkEvent} {s : Stage} (h : run workStep {} events = some s) :
    run (watchedStep cfg) {} (events.map Sum.inl) = some { stage := s } := by
  refine run_history workStep
    (I := fun es s => StepSystem.run (watchedStep cfg) {} (es.map Sum.inl) = some { stage := s })
    rfl ?_ h
  intro past m event m' before step
  rw [List.map_append]
  exact (run_concat _ _ _ _ _).mpr ⟨_, before, by simp [watchedStep, step]⟩

variable (cfg)

/-- A worker is never reported as stalled exactly when no item is ever waiting more
than the timeout after it last took one. -/
theorem never_reported_iff_never_late (events : List WorkEvent) :
    NeverReported cfg events ↔ NeverLate cfg events := by
  constructor
  · intro quiet past s before ran waiting
    by_contra late
    -- a scan that runs through at that very moment
    have scanned : run (watchedStep cfg) {} (past.map Sum.inl ++
        [ScanEvent.start, .readPending, .readActivity].map Sum.inr) =
          some { stage := s, stalls := 1 } := by
      have fired := (@failureReason_target cfg s true s.clock).mpr
        ⟨rfl, not_le.mp late⟩
      rw [run_append, run_unscanned ran]
      simp [watchedStep, scanStep, waiting, fired]
    have prefixed : schedule (past.map Sum.inl ++
        [ScanEvent.start, .readPending, .readActivity].map Sum.inr) <+: events := by
      rwa [schedule_append, schedule_work, schedule_scan, List.append_nil]
    have reports := quiet _ _ prefixed scanned
    simp at reports
  · intro prompt interleaved w before ran
    by_contra stalled
    obtain ⟨past, s, within, reached, waiting, late⟩ := (Watching.run ran).reported stalled
    exact absurd (prompt past s (within.trans before) reached waiting) (not_le.mpr late)

section IdleGap

/-- A minute without input, then one item, taken a tenth of a second later. -/
def idleGap : List WorkEvent :=
  [.tick 60, .put, .tick (1 / 10), .dequeue, .stamp, .tick 1, .finish]

/-- The scan falls between the put and the dequeue. -/
theorem idleGap_reported :
    ∃ interleaved w, schedule interleaved <+: idleGap ∧ Prompt {} (1 / 10) idleGap ∧
      run (watchedStep {}) {} interleaved = some w ∧ w.stalls ≠ 0 :=
  ⟨[.inl (.tick 60), .inl .put, .inr .start, .inr .readPending, .inr .readActivity], _,
    by decide, by decide +kernel, rfl, by decide +kernel⟩

end IdleGap

end EdgeVoice.StallDetection
