import EdgeVoice.RunningFlag

/-! An exception inside stop(). The final signalling loop is in the `finally` of a `try` that
begins only when metrics and supervisor are down and the workers have been read, so an exception
before that leaves stop() with the workers as they were. -/

namespace EdgeVoice.InterruptedStop
open PythonText VadWorker StepSystem StopRestart RunningFlag

/-- What stop() does one after another; a join ends, or gives up, without a trace here. -/
inductive StopAction
  | clearRunning
  | setStopEvent
  | signalMetrics
  | joinMetrics
  | signalSupervisor
  | joinSupervisor
  | getWorkers
  | enterTry
  | signal (slot : Slot)
  | join (slot : Slot)
deriving DecidableEq

variable (settings : PipelineSettings)

/-- The loop in the `try`. -/
def drain (o : Orchestrator) : List StopAction :=
  ((slots settings.channels.val).filter fun slot => (o.workers slot).isSome).flatMap fun slot =>
    [.signal slot, .join slot]

variable {settings} {o : Orchestrator}

variable (settings o)

section Restarts

variable {channels : List Str} {p p' : Pipeline}

/-- stop() and the restarts in flight, with an exception in the loop of the `try`: the
`finally` signals what stop() had read. -/
def interruptibleStep (channels : List Str) (p : Pipeline) : Option Move → Option Pipeline
  | some move => pipelineStep channels p move
  | none =>
    match p.stop with
    | .draining workers _ => some { p with stop := .signalling workers workers }
    | _ => none

theorem interruptibleStep_inv {move : Option Move} (h : Inv channels p)
    (step : interruptibleStep channels p move = some p') : Inv channels p' := by
  cases move with
  | some move => exact pipelineStep_inv h step
  | none =>
    unfold interruptibleStep at step
    simp only at step
    split at step
    · rename_i workers left at_point
      cases step
      refine h.drain (.signalling workers workers) (by simp [at_point, StopPoint.Passed])
        (by simp [at_point, StopPoint.Flagged]) (by simp [at_point, StopPoint.workers]) ?_ (by simp)
      intro all left same x member
      cases same
      exact Or.inl member
    · cases step

/-- An exception inside the `try` leaves every instance that was ever started signalled,
whatever the restarts do. -/
theorem interrupted_with_restarts {worker : Slot → Option Bool} {running stopEvent : Bool}
    {moves : List (Option Move)}
    (reached : run (interruptibleStep channels) (assembled channels worker running stopEvent)
      moves = some p) {workers : List (Slot × ℕ)} (finished : p.stop = .finished workers)
    (slot : Slot) (i : ℕ) (started : (p.slots slot).started i = true) :
    (p.slots slot).stopping i = true := by
  have inv : Inv channels p := run_invariant _ (Inv.assembled worker running stopEvent)
    (fun _ _ _ before step => interruptibleStep_inv before step) reached
  exact inv.all_signalled finished slot i started

end Restarts

end EdgeVoice.InterruptedStop
