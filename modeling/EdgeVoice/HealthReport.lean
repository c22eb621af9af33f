import EdgeVoice.KeyedRows
import EdgeVoice.Supervisor
import EdgeVoice.VadWorker

/-! GET /api/status: get_status() and the report that is built on it at each request. Of a
metrics tick it has what the report reads; the clock's floats are their exact values. -/

namespace EdgeVoice.HealthReport
open PythonText VadWorker KeyedRows

/-- A worker's thread, and whether it is alive. -/
structure Worker where
  name : Str
  alive : Bool

structure Status where
  running : Bool
  degraded : Bool
  workers : List (Str × Str)
deriving DecidableEq

def stateText : Supervisor.TargetStatus → Str
  | .running => "running".toList
  | .restarting => "restarting".toList
  | .degraded => "degraded".toList

/-- A supervised worker that is alive shows what its supervisor knows of it. -/
def refine (workers : List (Str × Str)) (target : Str × Supervisor.TargetState) :
    List (Str × Str) :=
  if workers.lookup target.1 = some "running".toList then
    setRow workers target.1 (stateText target.2.state)
  else workers

/-- Seconds a stage took, by channel. -/
abbrev ByChannel := List (Str × ℚ)

structure Latencies where
  router : ByChannel
  vadSilero : ByChannel
  vadRmsGate : ByChannel
  stt : ByChannel
deriving DecidableEq

inductive MetricsState
  | ok
  | pending
  | disabled
deriving DecidableEq

inductive Verdict
  | ok
  | warn
  | down
deriving DecidableEq

structure Restarts where
  max : ℕ
  windowS : ℚ
  counts : List (Str × ℕ)
deriving DecidableEq

structure ChannelInfo where
  freshnessS : Option ℚ
  stale : Bool
deriving DecidableEq

/-- A dict's keys are its own. -/
structure Report where
  status : Status
  queueDepths : List (Str × ℕ)
  channels : List (Str × ChannelInfo)
  staleAfterS : ℚ
  metrics : MetricsState × Option ℚ
  mqttConnected : Option Bool
  restarts : Option Restarts
  latencies : Option Latencies
  verdict : Verdict
  distinct : (channels.map Prod.fst).Nodup

def verdict (running degraded : Bool) (mqttConnected : Option Bool) : Verdict :=
  if !running then .down
  else if degraded || mqttConnected = some false then .warn
  else .ok

section Status

variable {running : Bool} {threads : List Worker} {supervisor : Option Watch}

end Status

end EdgeVoice.HealthReport
