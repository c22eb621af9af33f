import EdgeVoice.StepSystem
import EdgeVoice.Supervisor

/-! The supervisor over the orchestrator's restarts, before any stop(). A restart is
the sequence of steps `_restart` and `_restart_dict_worker` share, on its own thread;
`build_fn` and `start()` may raise. Scans, exits and the steps of all restarts
interleave freely. The bookkeeping after a raise says the next tick re-evaluates:
it does, except after a raising `build_fn`, which leaves the old, signalled worker. -/

namespace EdgeVoice.WorkerRestart
open PythonText StepSystem Supervisor

/-- A worker instance: its stop flag, and whether it is running. -/
structure Worker where
  stopping : Bool := false
  alive : Bool := false
deriving DecidableEq

/-- How far a restart thread has got; `failed` is between the exception and the
`finally` of `_restart_worker`. -/
inductive RestartPoint
  | dispatched
  | signalled
  | joined
  | built
  | swapped
  | started
  | failed
deriving DecidableEq

/-- A target, the worker its orchestrator attribute refers to, and its restart. -/
structure Supervised where
  target : TargetState := {}
  current : Worker := {}
  restart : Option RestartPoint := none
deriving DecidableEq

/-- One step of a restart. The join may time out with the old worker alive, or kill
it if it is a process; `build` and `start` may raise. -/
inductive RestartStep
  | signal
  | join (killed : Bool)
  | build (raised : Bool)
  | swap
  | start (raised : Bool)
  | finish
deriving DecidableEq

def restartStep (s : Supervised) : RestartStep → Option Supervised
  | .signal =>
    if s.restart = some .dispatched then
      some { s with current := { s.current with stopping := true }, restart := some .signalled }
    else none
  | .join killed =>
    if s.restart = some .signalled then
      some { s with
        current := if killed then { s.current with alive := false } else s.current
        restart := some .joined }
    else none
  | .build raised =>
    if s.restart = some .joined then
      some { s with restart := some (if raised then .failed else .built) }
    else none
  | .swap =>
    if s.restart = some .built then some { s with current := {}, restart := some .swapped }
    else none
  | .start raised =>
    if s.restart = some .swapped then
      some (if raised then { s with restart := some .failed }
        else { s with current := { s.current with alive := true }, restart := some .started })
    else none
  | .finish =>
    if s.restart = some .started then
      some { s with target := finishRestart false s.target, restart := none }
    else if s.restart = some .failed then
      some { s with target := finishRestart true s.target, restart := none }
    else none

inductive SystemEvent
  | scan (now : ℚ) (triggeredAt : Str → ℚ) (pending : Str → Bool) (lastActivity : Str → ℚ)
  | exits (name : Str)
  | restart (name : Str) (step : RestartStep)

variable (cfg : SupervisorConfig) (stallDetection : Str → Bool)

/-- The readings a scan takes of a target, given those of its queue and clock. -/
def readings (s : Supervised) (pending : Bool) (lastActivity : ℚ) : Readings :=
  { isStopping := s.current.stopping, isAlive := s.current.alive
    inputPending := pending, lastActivity := lastActivity }

/-- A scan's part for one target; a dispatch starts the restart thread. -/
def scanOne (detect : Bool) (now triggeredAt : ℚ) (pending : Bool) (lastActivity : ℚ)
    (s : Supervised) : Supervised :=
  let target := scanTarget cfg detect (readings s pending lastActivity) now triggeredAt s.target
  { s with
    target := target
    restart := if target.restarting && !s.target.restarting then some .dispatched
      else s.restart }

def systemStep (s : Str → Supervised) : SystemEvent → Option (Str → Supervised)
  | .scan now triggeredAt pending lastActivity =>
    some fun name => scanOne cfg (stallDetection name) now (triggeredAt name) (pending name)
      (lastActivity name) (s name)
  | .exits name =>
    if (s name).current.alive then
      some (Function.update s name
        { s name with current := { (s name).current with alive := false } })
    else none
  | .restart name step => (restartStep (s name) step).map (Function.update s name)

/-- The workers are up when the supervisor starts. -/
def allRunning : Str → Supervised := fun _ => { current := { alive := true } }

/-- Whether the last `build_fn` called for the target raised. -/
def lastBuildRaised (name : Str) (events : List SystemEvent) : Bool :=
  ((events.filterMap fun
    | .restart other (.build raised) => if other = name then some raised else none
    | _ => none).getLast?).getD false

/-- The flags of a target follow its restart thread, and its worker's stop flag is set
from the signal to the swap, or for good if the build in between raised. -/
structure Tracks (raised : Bool) (s : Supervised) : Prop where
  restarting : s.target.restarting = s.restart.isSome
  stopping : s.current.stopping =
    match s.restart with
    | none | some .dispatched | some .failed => raised
    | some .signalled | some .joined | some .built => true
    | some .swapped | some .started => false
  built : s.restart = some .built ∨ s.restart = some .swapped ∨ s.restart = some .started →
    raised = false

variable {cfg stallDetection}

theorem Tracks.scan {raised : Bool} {s : Supervised} (h : Tracks raised s) (detect : Bool)
    (now triggeredAt : ℚ) (pending : Bool) (lastActivity : ℚ) :
    Tracks raised (scanOne cfg detect now triggeredAt pending lastActivity s) := by
  unfold scanOne
  by_cases reported : (scanReason cfg detect (readings s pending lastActivity) now
      s.target).isSome = true
  · have idle : s.target.restarting = false := by
      by_contra flag
      have busy : s.target.restarting = true := by simpa using flag
      simp [scanReason, busy] at reported
    have noThread : s.restart = none := by
      have flag := h.restarting
      rw [idle] at flag
      exact Option.not_isSome_iff_eq_none.mp (by simp [← flag])
    have stopping := h.stopping
    rw [noThread] at stopping
    simp only [scanTarget, if_pos reported, triggerRestart]
    split
    · refine ⟨by simp [idle, noThread], ?_, by simp [noThread, idle]⟩
      simpa [idle, noThread] using stopping
    · refine ⟨by simp [idle], ?_, by simp [idle]⟩
      simpa [idle] using stopping
  · have silent : (scanReason cfg detect (readings s pending lastActivity) now
        s.target).isSome = false := by simpa using reported
    rw [scanTarget_silent cfg silent]
    have same : (s.target.restarting && !s.target.restarting) = false := by simp
    simp only [same, Bool.false_eq_true, if_false]
    exact h

/-- The answer of the last build after one more restart step. -/
def buildAnswer (raised : Bool) : RestartStep → Bool
  | .build answer => answer
  | _ => raised

theorem Tracks.restart {raised : Bool} {s s' : Supervised} (h : Tracks raised s)
    {step : RestartStep} (next : restartStep s step = some s') :
    Tracks (buildAnswer raised step) s' := by
  obtain ⟨restarting, stopping, built⟩ := h
  cases step with
  | signal =>
    simp only [restartStep] at next
    split at next <;> cases next
    rename_i point
    exact ⟨by simpa [point] using restarting, rfl, by simp⟩
  | join killed =>
    simp only [restartStep] at next
    split at next <;> cases next
    rename_i point
    refine ⟨by simpa [point] using restarting, ?_, by simp⟩
    cases killed <;> simpa [point] using stopping
  | build answer =>
    simp only [restartStep] at next
    split at next <;> cases next
    rename_i point
    refine ⟨by simpa [point] using restarting, ?_, ?_⟩
    · cases answer <;> simpa [point, buildAnswer] using stopping
    · cases answer <;> simp [buildAnswer]
  | swap =>
    simp only [restartStep] at next
    split at next <;> cases next
    rename_i point
    exact ⟨by simpa [point] using restarting, rfl, fun _ => built (Or.inl point)⟩
  | start answer =>
    simp only [restartStep] at next
    split at next <;> cases next
    rename_i point
    have fine : raised = false := built (Or.inr (Or.inl point))
    refine ⟨?_, ?_, fun _ => fine⟩
    · cases answer <;> simpa [point] using restarting
    · cases answer <;> simpa [point, buildAnswer, fine] using stopping
  | finish =>
    simp only [restartStep] at next
    split at next
    · rename_i point
      cases next
      have fine : raised = false := built (Or.inr (Or.inr point))
      refine ⟨rfl, ?_, by simp⟩
      simpa [point, buildAnswer, fine] using stopping
    · split at next <;> cases next
      rename_i point
      refine ⟨rfl, ?_, by simp⟩
      simpa [point, buildAnswer] using stopping

theorem lastBuildRaised_concat (name : Str) (events : List SystemEvent) (event : SystemEvent) :
    lastBuildRaised name (events ++ [event]) =
      match event with
      | .restart other step =>
        if other = name then buildAnswer (lastBuildRaised name events) step
        else lastBuildRaised name events
      | _ => lastBuildRaised name events := by
  cases event with
  | scan => simp [lastBuildRaised]
  | exits => simp [lastBuildRaised]
  | restart other step =>
    by_cases mine : other = name
    · cases step <;> simp [lastBuildRaised, buildAnswer, mine]
    · cases step <;> simp [lastBuildRaised, mine]

/-- One event keeps every target's flags in step with its restart thread. -/
theorem systemStep_tracks {events : List SystemEvent} {s s' : Str → Supervised}
    {event : SystemEvent} (h : ∀ name, Tracks (lastBuildRaised name events) (s name))
    (next : systemStep cfg stallDetection s event = some s') (name : Str) :
    Tracks (lastBuildRaised name (events ++ [event])) (s' name) := by
  rw [lastBuildRaised_concat]
  cases event with
  | scan now triggeredAt pending lastActivity =>
    cases next
    exact (h name).scan _ _ _ _ _
  | exits other =>
    simp only [systemStep] at next
    split at next <;> cases next
    by_cases mine : name = other
    · subst mine
      rw [Function.update_self]
      exact ⟨(h name).restarting, (h name).stopping, (h name).built⟩
    · rw [Function.update_of_ne mine]
      exact h name
  | restart other step =>
    simp only [systemStep, Option.map_eq_some_iff] at next
    obtain ⟨t, stepped, rfl⟩ := next
    by_cases mine : other = name
    · subst mine
      rw [Function.update_self]
      simpa using (h other).restart stepped
    · rw [Function.update_of_ne (Ne.symm mine)]
      simpa [mine] using h name

variable (cfg stallDetection)

/-- In every reachable state, a dead worker that is neither degraded nor being restarted
is reported by the next scan exactly when the last `build_fn` for it did not raise;
otherwise its stop flag is still set and it looks stopped for good. -/
theorem dead_reported_iff_last_build_succeeded {events : List SystemEvent}
    {s : Str → Supervised}
    (reached : run (systemStep cfg stallDetection) allRunning events = some s)
    {name : Str} (dead : (s name).current.alive = false)
    (degraded : (s name).target.degraded = false)
    (idle : (s name).target.restarting = false) (now : ℚ) (pending : Bool) (lastActivity : ℚ) :
    ((scanReason cfg (stallDetection name) (readings (s name) pending lastActivity) now
        (s name).target).isSome = true ↔ lastBuildRaised name events = false) ∧
      (s name).current.stopping = lastBuildRaised name events := by
  have tracks : Tracks (lastBuildRaised name events) (s name) :=
    run_history (systemStep cfg stallDetection)
      (I := fun events s => ∀ name, Tracks (lastBuildRaised name events) (s name))
      (fun _ => ⟨rfl, rfl, by simp [allRunning]⟩)
      (fun _ _ _ _ holds next => systemStep_tracks holds next) reached name
  have noThread : (s name).restart = none := by
    have flag := tracks.restarting
    rw [idle] at flag
    exact Option.not_isSome_iff_eq_none.mp (by simp [← flag])
  have stopping : (s name).current.stopping = lastBuildRaised name events := by
    have flag := tracks.stopping
    rwa [noThread] at flag
  refine ⟨?_, stopping⟩
  rw [scanReason_dead cfg (by exact dead) degraded idle]
  simp [readings, stopping]

section FailedBuild

/-- A worker crashes, a scan restarts it, and the rebuild raises. -/
def failedBuild : List SystemEvent :=
  [.exits ['v'], .scan 1 (fun _ => 1) (fun _ => false) (fun _ => 0), .restart ['v'] .signal,
    .restart ['v'] (.join false), .restart ['v'] (.build true), .restart ['v'] .finish]

theorem failedBuild_reported_iff :
    ∃ s, run (systemStep {} fun _ => true) allRunning failedBuild = some s ∧
      ((scanReason {} true (readings (s ['v']) true 0) 100 (s ['v']).target).isSome = true ↔
        lastBuildRaised ['v'] failedBuild = false) := by
  have reached : run (systemStep {} fun _ => true) allRunning failedBuild = some _ := rfl
  exact ⟨_, reached, (dead_reported_iff_last_build_succeeded {} (fun _ => true) reached
    rfl rfl rfl 100 true 0).1⟩

theorem failedBuild_abandoned :
    ∃ s, run (systemStep {} fun _ => true) allRunning failedBuild = some s ∧
      (s ['v']).current.alive = false ∧ (s ['v']).target.degraded = false ∧
      (s ['v']).target.restarting = false ∧
      (scanReason {} true (readings (s ['v']) true 0) 100 (s ['v']).target).isSome = false := by
  refine ⟨_, rfl, ?_⟩
  decide +kernel

end FailedBuild

end EdgeVoice.WorkerRestart
