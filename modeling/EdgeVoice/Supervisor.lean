import EdgeVoice.PythonText

/-! Supervisor: detection and bookkeeping of one tick, target by target. A target's
callables enter as the readings they return; the watchdog ping, the log and the
seconds in a reason's text are left out. -/

namespace EdgeVoice.Supervisor

/-- ReliabilitySettings admits positive times only. -/
structure SupervisorConfig where
  stallTimeoutS : ℚ := 10
  maxRestarts : ℕ := 3
  restartWindowS : ℚ := 60
  stallTimeoutS_pos : 0 < stallTimeoutS := by norm_num
  restartWindowS_pos : 0 < restartWindowS := by norm_num

inductive TargetStatus
  | running
  | restarting
  | degraded
deriving DecidableEq

/-- `_TargetState` without its callables. -/
structure TargetState where
  restarts : List ℚ := []
  degraded : Bool := false
  restarting : Bool := false
  state : TargetStatus := .running
deriving DecidableEq

/-- What the target's callables return to one scan. -/
structure Readings where
  isStopping : Bool
  isAlive : Bool
  inputPending : Bool
  lastActivity : ℚ

inductive FailureReason
  | crashed
  | stalled
deriving DecidableEq

variable (cfg : SupervisorConfig)

def failureReason (stallDetection : Bool) (r : Readings) (now : ℚ) : Option FailureReason :=
  if r.isStopping then none
  else if !r.isAlive then some .crashed
  else if stallDetection && r.inputPending && cfg.stallTimeoutS < now - r.lastActivity then
    some .stalled
  else none

/-- Prune the window, then either spend one restart of the budget or degrade. -/
def triggerRestart (now : ℚ) (ts : TargetState) : TargetState :=
  let restarts := ts.restarts.dropWhile fun at_ => cfg.restartWindowS < now - at_
  if cfg.maxRestarts ≤ restarts.length then
    { ts with restarts := restarts, degraded := true, state := .degraded }
  else { ts with restarts := restarts ++ [now], restarting := true, state := .restarting }

/-- The end of `_restart_worker`, whether `restart()` raised or not. -/
def finishRestart (raised : Bool) (ts : TargetState) : TargetState :=
  { ts with
    restarting := false
    state := if raised || ts.degraded then ts.state else .running }

/-- What a scan reports of one target: nothing while it is degraded or being restarted. -/
def scanReason (stallDetection : Bool) (r : Readings) (now : ℚ) (ts : TargetState) :
    Option FailureReason :=
  if ts.degraded || ts.restarting then none else failureReason cfg stallDetection r now

/-- One target's part of `_scan`; `triggeredAt` is the clock `_trigger_restart` reads. -/
def scanTarget (stallDetection : Bool) (r : Readings) (now triggeredAt : ℚ) (ts : TargetState) :
    TargetState :=
  if (scanReason cfg stallDetection r now ts).isSome then triggerRestart cfg triggeredAt ts else ts

/-- A target that is not reported is left as it is. -/
theorem scanTarget_silent {stallDetection : Bool} {r : Readings} {now triggeredAt : ℚ}
    {ts : TargetState} (h : (scanReason cfg stallDetection r now ts).isSome = false) :
    scanTarget cfg stallDetection r now triggeredAt ts = ts := by
  simp [scanTarget, h]

/-- A dead worker is reported unless it looks stopped. -/
theorem scanReason_dead {stallDetection : Bool} {r : Readings} {now : ℚ} {ts : TargetState}
    (dead : r.isAlive = false) (degraded : ts.degraded = false)
    (restarting : ts.restarting = false) :
    (scanReason cfg stallDetection r now ts).isSome = !r.isStopping := by
  cases stopping : r.isStopping <;>
    simp [scanReason, failureReason, dead, degraded, restarting, stopping]

end EdgeVoice.Supervisor
