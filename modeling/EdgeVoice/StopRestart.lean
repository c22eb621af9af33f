import EdgeVoice.PythonText
import EdgeVoice.StepSystem

/-! stop() against the restarts in flight. A restart swaps its new worker in before it
looks at `_running` and `_stop_event`, and stop() clears the one and sets the other before
it reads the worker attributes, so a worker a restart goes on to start is one stop() has
seen. Restarts and stop() are sequences of single steps that interleave freely; joins are
bounded and change no flag. -/

namespace EdgeVoice.StopRestart
open PythonText StepSystem

/-- The worker attributes, and the entries of the `_stt` dict. -/
inductive Slot
  | audioSource
  | router
  | vad
  | stt (channelId : Str)
  | dumpWorker
  | segmentDumpWorker
deriving DecidableEq

/-- What `_get_workers` reads, in its order. -/
def slots (channels : List Str) : List Slot :=
  [.audioSource, .router, .vad] ++ channels.map .stt ++ [.dumpWorker, .segmentDumpWorker]

/-- The slots that have a supervised target. -/
def supervised (channels : List Str) : Slot → Bool
  | .audioSource => true
  | .router => true
  | .vad => true
  | .stt channelId => channels.contains channelId
  | .dumpWorker => false
  | .segmentDumpWorker => false

/-- How far `_restart` or `_restart_dict_worker` has got with a slot's instances. -/
inductive RestartPoint
  | took (old : ℕ)
  | signalled (old : ℕ)
  | joined (old : ℕ)
  | built (old new : ℕ)
  | swapped (new : ℕ)
  | sawRunning (new : ℕ)
  | sawNoStop (new : ℕ)
deriving DecidableEq

/-- A slot: the instance it refers to, and of all instances built for it, numbered in
order, which were started and which have their stop flag set. -/
structure SlotState where
  current : Option ℕ := none
  count : ℕ := 0
  started : ℕ → Bool := fun _ => false
  stopping : ℕ → Bool := fun _ => false
  restart : Option RestartPoint := none

/-- Where stop() stands. The workers it has read are `workers`. -/
inductive StopPoint
  | notCalled
  | runningCleared
  | eventSet
  | reading (workers : List (Slot × ℕ)) (left : List Slot)
  | draining (workers left : List (Slot × ℕ))
  | signalling (workers left : List (Slot × ℕ))
  | finished (workers : List (Slot × ℕ))
deriving DecidableEq

structure Pipeline where
  running : Bool
  stopEvent : Bool
  slots : Slot → SlotState
  stop : StopPoint := .notCalled

/-- A pipeline as stop() may find it: a slot is `None` or has a worker, started or not. -/
def assembled (channels : List Str) (worker : Slot → Option Bool) (running stopEvent : Bool) :
    Pipeline where
  running := running
  stopEvent := stopEvent
  slots slot :=
    match worker slot with
    | none => {}
    | some up =>
      if slot ∈ StopRestart.slots channels then
        { current := some 0, count := 1, started := fun i => i = 0 && up }
      else {}

/-- `_signal`. -/
def signal (i : ℕ) (s : SlotState) : SlotState :=
  { s with stopping := Function.update s.stopping i true }

/-- The next step of the restart of a slot. `raised` tells of `build_fn` and `start()`. -/
def restartStep (running stopEvent raised : Bool) (s : SlotState) : Option SlotState :=
  match s.restart with
  | none => s.current.map fun old => { s with restart := some (.took old) }
  | some (.took old) => some { signal old s with restart := some (.signalled old) }
  | some (.signalled old) => some { s with restart := some (.joined old) }
  | some (.joined old) =>
    if raised then some { s with restart := none }
    else some { s with count := s.count + 1, restart := some (.built old s.count) }
  | some (.built _ new) => some { s with current := some new, restart := some (.swapped new) }
  | some (.swapped new) =>
    some { s with restart := if running then some (.sawRunning new) else none }
  | some (.sawRunning new) =>
    some { s with restart := if stopEvent then none else some (.sawNoStop new) }
  | some (.sawNoStop new) =>
    some { s with
      started := if raised then s.started else Function.update s.started new true
      restart := none }

/-- The next step of stop(). Between the event and the first read it signals and joins
metrics and supervisor, which may give up on a restart. -/
def stopStep (channels : List Str) (p : Pipeline) : Option Pipeline :=
  match p.stop with
  | .notCalled => some { p with running := false, stop := .runningCleared }
  | .runningCleared => some { p with stopEvent := true, stop := .eventSet }
  | .eventSet => some { p with stop := .reading [] (slots channels) }
  | .reading workers (slot :: left) =>
    match (p.slots slot).current with
    | none => some { p with stop := .reading workers left }
    | some i => some { p with stop := .reading (workers ++ [(slot, i)]) left }
  | .reading workers [] => some { p with stop := .draining workers workers }
  | .draining workers ((slot, i) :: left) =>
    some { p with
      slots := Function.update p.slots slot (signal i (p.slots slot))
      stop := .draining workers left }
  | .draining workers [] => some { p with stop := .signalling workers workers }
  | .signalling workers ((slot, i) :: left) =>
    some { p with
      slots := Function.update p.slots slot (signal i (p.slots slot))
      stop := .signalling workers left }
  | .signalling workers [] => some { p with stop := .finished workers }
  | .finished _ => none

inductive Move
  | restart (slot : Slot) (raised : Bool)
  | stop

def pipelineStep (channels : List Str) (p : Pipeline) : Move → Option Pipeline
  | .restart slot raised =>
    if supervised channels slot then
      (restartStep p.running p.stopEvent raised (p.slots slot)).map fun s =>
        { p with slots := Function.update p.slots slot s }
    else none
  | .stop => stopStep channels p

/-- The workers stop() has read so far. -/
def StopPoint.workers : StopPoint → List (Slot × ℕ)
  | .reading workers _ => workers
  | .draining workers _ => workers
  | .signalling workers _ => workers
  | .finished workers => workers
  | _ => []

/-- stop() has read the slot. -/
def StopPoint.Passed (slot : Slot) : StopPoint → Prop
  | .notCalled => False
  | .runningCleared => False
  | .eventSet => False
  | .reading _ left => slot ∉ left
  | _ => True

/-- stop() has set the event. -/
def StopPoint.Flagged : StopPoint → Prop
  | .notCalled => False
  | .runningCleared => False
  | _ => True

theorem StopPoint.Passed.flagged {slot : Slot} {stop : StopPoint} (h : stop.Passed slot) :
    stop.Flagged := by
  cases stop with
  | notCalled => exact h
  | runningCleared => exact h
  | _ => trivial

section Slots

variable {passed later : Prop} {read : ℕ → Prop} {s s' : SlotState}

/-- The instance the slot refers to, which stop() has read if it has passed the slot. -/
def Held (passed : Prop) (read : ℕ → Prop) (s : SlotState) (i : ℕ) : Prop :=
  s.current = some i ∧ (passed → read i)

/-- What a restart knows of the instances it deals with. -/
def RestartPoint.Knows (passed : Prop) (read : ℕ → Prop) (s : SlotState) : RestartPoint → Prop
  | .took old => s.current = some old
  | .signalled old => s.current = some old ∧ s.stopping old = true
  | .joined old => s.current = some old ∧ s.stopping old = true
  | .built old _ => s.current = some old ∧ s.stopping old = true
  | .swapped new => s.current = some new
  | .sawRunning new => s.current = some new
  | .sawNoStop new => Held passed read s new

/-- Every started instance is signalled or held, and a restart about to start one holds it. -/
structure Covered (passed : Prop) (read : ℕ → Prop) (s : SlotState) : Prop where
  started : ∀ i, s.started i = true → s.stopping i = true ∨ Held passed read s i
  restart : ∀ point, s.restart = some point → point.Knows passed read s

/-- stop() reads on. -/
theorem Covered.onward (h : Covered passed read s) {read' : ℕ → Prop}
    (onward : ∀ i, s.current = some i → (passed → read i) → later → read' i) :
    Covered later read' s := by
  have held (i : ℕ) (before : Held passed read s i) : Held later read' s i :=
    ⟨before.1, onward i before.1 before.2⟩
  refine ⟨fun i up => (h.started i up).imp_right (held i), fun point at_point => ?_⟩
  have knows := h.restart point at_point
  cases point with
  | sawNoStop new => exact held new knows
  | _ => exact knows

@[simp] theorem signal_self (j : ℕ) (s : SlotState) : (signal j s).stopping j = true := by
  simp [signal]

theorem signal_kept (j : ℕ) {i : ℕ} (before : s.stopping i = true) :
    (signal j s).stopping i = true := by
  by_cases same : i = j
  · simp [signal, same]
  · simp [signal, Function.update_of_ne same, before]

/-- A worker of the slot is signalled. -/
theorem Covered.signal (h : Covered passed read s) (j : ℕ) :
    Covered passed read (signal j s) := by
  have kept (i : ℕ) := @signal_kept s j i
  refine ⟨fun i up => (h.started i up).imp_left (kept i), fun point at_point => ?_⟩
  have knows := h.restart point at_point
  cases point with
  | signalled old => exact ⟨knows.1, kept old knows.2⟩
  | joined old => exact ⟨knows.1, kept old knows.2⟩
  | built old new => exact ⟨knows.1, kept old knows.2⟩
  | _ => exact knows

/-- The restart gets to a point with the instances as they are. -/
theorem Covered.goOn (h : Covered passed read s) (count : ℕ) (point : RestartPoint)
    (knows : point.Knows passed read s) :
    Covered passed read { s with count := count, restart := some point } := by
  refine ⟨h.started, fun next at_next => ?_⟩
  cases at_next
  cases point <;> exact knows

theorem Covered.leave (h : Covered passed read s) :
    Covered passed read { s with restart := none } :=
  ⟨h.started, by simp⟩

/-- The old instance leaves the slot with its flag set. -/
theorem Covered.swap (h : Covered passed read s) {old : ℕ} (new : ℕ)
    (current : s.current = some old) (signalled : s.stopping old = true) :
    Covered passed read { s with current := some new, restart := some (.swapped new) } := by
  refine ⟨fun i up => Or.inl ?_, fun point at_point => ?_⟩
  · rcases h.started i up with before | held
    · exact before
    · have same : old = i := Option.some.inj (current.symm.trans held.1)
      rw [← same]
      exact signalled
  · cases at_point
    rfl

theorem Covered.start (h : Covered passed read s) {new : ℕ} (held : Held passed read s new)
    (raised : Bool) :
    Covered passed read { s with
      started := if raised then s.started else Function.update s.started new true
      restart := none } := by
  refine ⟨fun i up => ?_, by simp⟩
  by_cases same : i = new
  · right
    rw [same]
    exact held
  · refine h.started i ?_
    simp only at up
    split at up
    · exact up
    · simpa [Function.update_of_ne same] using up

/-- The step lemma of a restart: it starts nothing that stop() has missed. -/
theorem Covered.restartStep (h : Covered passed read s) {running stopEvent raised : Bool}
    (flagged : passed → stopEvent = true)
    (step : restartStep running stopEvent raised s = some s') :
    Covered passed read s' ∧ (s'.current.isSome = true → s.current.isSome = true) ∧
      ∀ i, s.stopping i = true → s'.stopping i = true := by
  unfold StopRestart.restartStep at step
  split at step
  · obtain ⟨old, current, rfl⟩ := Option.map_eq_some_iff.mp step
    exact ⟨h.goOn s.count (.took old) current, id, fun _ => id⟩
  · rename_i old at_old
    cases step
    have current := h.restart _ at_old
    exact ⟨(h.signal old).goOn s.count (.signalled old) ⟨current, signal_self old s⟩, id,
      fun _ => signal_kept old⟩
  · rename_i old at_old
    cases step
    have knows := h.restart _ at_old
    exact ⟨h.goOn s.count (.joined old) knows, id, fun _ => id⟩
  · rename_i old at_old
    split at step
    · cases step
      exact ⟨h.leave, id, fun _ => id⟩
    · cases step
      have knows := h.restart _ at_old
      exact ⟨h.goOn (s.count + 1) (.built old s.count) knows, id, fun _ => id⟩
  · rename_i old new at_built
    obtain ⟨current, signalled⟩ := h.restart _ at_built
    cases step
    exact ⟨h.swap new current signalled, fun _ => by simp [current], fun _ => id⟩
  · rename_i new at_new
    have knows := h.restart _ at_new
    cases step
    refine ⟨?_, id, fun _ => id⟩
    cases running with
    | true => exact h.goOn s.count (.sawRunning new) knows
    | false => exact h.leave
  · rename_i new at_new
    have current := h.restart _ at_new
    cases step
    refine ⟨?_, id, fun _ => id⟩
    cases stopEvent with
    | true => exact h.leave
    | false =>
      refine h.goOn s.count (.sawNoStop new) ⟨current, fun passed => ?_⟩
      cases flagged passed
  · rename_i new at_new
    cases step
    exact ⟨h.start (h.restart _ at_new) raised, id, fun _ => id⟩

end Slots

section Runs

variable {channels : List Str} {p p' : Pipeline}

/-- stop() has read the slot as it is. -/
def ReadOf (p : Pipeline) (slot : Slot) (i : ℕ) : Prop := (slot, i) ∈ p.stop.workers

structure Inv (channels : List Str) (p : Pipeline) : Prop where
  covered : ∀ slot, Covered (p.stop.Passed slot) (ReadOf p slot) (p.slots slot)
  listed : ∀ slot, (p.slots slot).current.isSome = true → slot ∈ slots channels
  flagged : p.stop.Flagged → p.stopEvent = true
  signalled : ∀ workers left, p.stop = .signalling workers left →
    ∀ x ∈ workers, x ∈ left ∨ (p.slots x.1).stopping x.2 = true
  finished : ∀ workers, p.stop = .finished workers →
    ∀ x ∈ workers, (p.slots x.1).stopping x.2 = true

theorem assembled_slot (worker : Slot → Option Bool) (running stopEvent : Bool) (slot : Slot) :
    (assembled channels worker running stopEvent).slots slot = {} ∨
      slot ∈ slots channels ∧ ∃ up, (assembled channels worker running stopEvent).slots slot =
        { current := some 0, count := 1, started := fun i => i = 0 && up } := by
  simp only [assembled]
  split
  · exact Or.inl rfl
  · rename_i up _
    split
    · rename_i listed
      exact Or.inr ⟨listed, up, rfl⟩
    · exact Or.inl rfl

theorem Inv.assembled (worker : Slot → Option Bool) (running stopEvent : Bool) :
    Inv channels (assembled channels worker running stopEvent) := by
  refine ⟨fun slot => ?_, fun slot some_worker => ?_,
    by simp [StopRestart.assembled, StopPoint.Flagged], by simp [StopRestart.assembled],
    by simp [StopRestart.assembled]⟩
  · have unread : ¬StopPoint.Passed slot
        (StopRestart.assembled channels worker running stopEvent).stop := by
      simp [StopRestart.assembled, StopPoint.Passed]
    rcases @assembled_slot channels worker running stopEvent slot with
      empty | ⟨_, up, whole⟩
    · rw [empty]
      exact ⟨by simp, by simp⟩
    · rw [whole]
      refine ⟨fun i started => Or.inr ⟨?_, fun passed => absurd passed unread⟩, by simp⟩
      simp only [Bool.and_eq_true, decide_eq_true_eq] at started
      simp [started.1]
  · rcases @assembled_slot channels worker running stopEvent slot with empty | ⟨listed, _⟩
    · simp [empty] at some_worker
    · exact listed

/-- One slot changes; no flag is taken back. -/
theorem Inv.update (h : Inv channels p) {slot : Slot} {s : SlotState}
    (covered : Covered (p.stop.Passed slot) (ReadOf p slot) s)
    (some_worker : s.current.isSome = true → (p.slots slot).current.isSome = true)
    (kept : ∀ i, (p.slots slot).stopping i = true → s.stopping i = true) :
    Inv channels { p with slots := Function.update p.slots slot s } := by
  have stays (other : Slot) (i : ℕ) (before : (p.slots other).stopping i = true) :
      (Function.update p.slots slot s other).stopping i = true := by
    by_cases same : other = slot
    · subst same
      rw [Function.update_self]
      exact kept i before
    · rw [Function.update_of_ne same]
      exact before
  refine ⟨fun other => ?_, fun other => ?_, h.flagged, fun workers left at_point x member => ?_,
    fun workers at_end x member => stays _ _ (h.finished workers at_end x member)⟩
  · by_cases same : other = slot
    · subst same
      simp only [Function.update_self]
      exact covered
    · simp only [Function.update_of_ne same]
      exact h.covered other
  · by_cases same : other = slot
    · subst same
      simp only [Function.update_self]
      exact fun now => h.listed other (some_worker now)
    · simp only [Function.update_of_ne same]
      exact h.listed other
  · exact (h.signalled workers left at_point x member).imp_right (stays _ _)

/-- stop() moves on without a signal. -/
theorem Inv.advance (h : Inv channels p) (running stopEvent : Bool) (stop : StopPoint)
    (onward : ∀ slot i, (p.slots slot).current = some i →
      (p.stop.Passed slot → (slot, i) ∈ p.stop.workers) → stop.Passed slot →
        (slot, i) ∈ stop.workers)
    (flagged : stop.Flagged → stopEvent = true)
    (signalled : ∀ workers left, stop = .signalling workers left →
      ∀ x ∈ workers, x ∈ left ∨ (p.slots x.1).stopping x.2 = true)
    (finished : ∀ workers, stop = .finished workers →
      ∀ x ∈ workers, (p.slots x.1).stopping x.2 = true) :
    Inv channels { p with running := running, stopEvent := stopEvent, stop := stop } :=
  ⟨fun slot => (h.covered slot).onward (onward slot), h.listed, flagged, signalled, finished⟩

/-- stop() moves on once it has read every slot. -/
theorem Inv.drain (h : Inv channels p) (stop : StopPoint)
    (all_read : ∀ slot, p.stop.Passed slot) (flagged : p.stop.Flagged)
    (same : stop.workers = p.stop.workers)
    (signalled : ∀ workers left, stop = .signalling workers left →
      ∀ x ∈ workers, x ∈ left ∨ (p.slots x.1).stopping x.2 = true)
    (finished : ∀ workers, stop = .finished workers →
      ∀ x ∈ workers, (p.slots x.1).stopping x.2 = true) :
    Inv channels { p with stop := stop } := by
  refine h.advance p.running p.stopEvent stop ?_ (fun _ => h.flagged flagged) signalled finished
  intro slot i _ read _
  rw [same]
  exact read (all_read slot)

/-- stop() signals a worker and goes on. -/
theorem Inv.signal (h : Inv channels p) (slot : Slot) (i : ℕ) :
    Inv channels { p with
      slots := Function.update p.slots slot (signal i (p.slots slot)) } :=
  h.update ((h.covered slot).signal i) id fun _ before => signal_kept i before

/-- The step lemma of stop(). -/
theorem stopStep_inv (h : Inv channels p) (step : stopStep channels p = some p') :
    Inv channels p' := by
  unfold stopStep at step
  split at step
  · cases step
    exact h.advance _ _ _ (by simp [StopPoint.Passed]) (by simp [StopPoint.Flagged])
      (by simp) (by simp)
  · cases step
    exact h.advance _ _ _ (by simp [StopPoint.Passed]) (by simp) (by simp) (by simp)
  · rename_i at_point
    cases step
    refine h.advance _ _ _ ?_ (fun _ => h.flagged (by simp [at_point, StopPoint.Flagged]))
      (by simp) (by simp)
    -- every slot that has a worker is still to be read
    intro slot i current _ passed
    exact absurd (h.listed slot (by simp [current])) passed
  · rename_i workers slot left at_point
    have flagged := h.flagged (by simp [at_point, StopPoint.Flagged])
    split at step
    · rename_i no_worker
      cases step
      refine h.advance _ _ _ ?_ (fun _ => flagged) (by simp) (by simp)
      intro other i current read passed
      by_cases same : other = slot
      · rw [same, no_worker] at current
        cases current
      · simp only [at_point, StopPoint.Passed, StopPoint.workers, List.mem_cons, not_or] at read
        exact read ⟨same, passed⟩
    · rename_i worker at_slot
      cases step
      refine h.advance _ _ _ ?_ (fun _ => flagged) (by simp) (by simp)
      intro other i current read passed
      by_cases same : other = slot
      · rw [same, at_slot] at current
        cases current
        simp [StopPoint.workers, same]
      · simp only [at_point, StopPoint.Passed, StopPoint.workers, List.mem_cons, not_or] at read
        exact List.mem_append_left _ (read ⟨same, passed⟩)
  · rename_i workers at_point
    cases step
    exact h.drain (.draining workers workers) (by simp [at_point, StopPoint.Passed])
      (by simp [at_point, StopPoint.Flagged]) (by simp [at_point, StopPoint.workers]) (by simp)
      (by simp)
  · rename_i workers slot i left at_point
    cases step
    exact (h.signal slot i).drain (.draining workers left) (by simp [at_point, StopPoint.Passed])
      (by simp [at_point, StopPoint.Flagged]) (by simp [at_point, StopPoint.workers]) (by simp)
      (by simp)
  · rename_i workers at_point
    cases step
    refine h.drain (.signalling workers workers) (by simp [at_point, StopPoint.Passed])
      (by simp [at_point, StopPoint.Flagged]) (by simp [at_point, StopPoint.workers]) ?_ (by simp)
    intro all left same x member
    cases same
    exact Or.inl member
  · rename_i workers slot i left at_point
    cases step
    have signalled := h.signal slot i
    refine signalled.drain (.signalling workers left) (by simp [at_point, StopPoint.Passed])
      (by simp [at_point, StopPoint.Flagged]) (by simp [at_point, StopPoint.workers]) ?_ (by simp)
    intro all rest same x member
    cases same
    rcases signalled.signalled workers ((slot, i) :: left) at_point x member with waiting | done
    · rcases List.mem_cons.mp waiting with rfl | later
      · right
        simp
      · exact Or.inl later
    · exact Or.inr done
  · rename_i workers at_point
    cases step
    refine h.drain (.finished workers) (by simp [at_point, StopPoint.Passed])
      (by simp [at_point, StopPoint.Flagged]) (by simp [at_point, StopPoint.workers]) (by simp) ?_
    intro all same x member
    cases same
    rcases h.signalled workers [] at_point x member with waiting | done
    · cases waiting
    · exact done
  · cases step

theorem pipelineStep_inv {move : Move} (h : Inv channels p)
    (step : pipelineStep channels p move = some p') : Inv channels p' := by
  cases move with
  | restart slot raised =>
    simp only [pipelineStep] at step
    split at step
    · obtain ⟨s, stepped, rfl⟩ := Option.map_eq_some_iff.mp step
      obtain ⟨covered, some_worker, kept⟩ :=
        (h.covered slot).restartStep (fun passed => h.flagged passed.flagged) stepped
      exact h.update covered some_worker kept
    · cases step
  | stop => exact stopStep_inv h step

theorem Inv.all_signalled (inv : Inv channels p) {workers : List (Slot × ℕ)}
    (finished : p.stop = .finished workers) (slot : Slot) (i : ℕ)
    (started : (p.slots slot).started i = true) : (p.slots slot).stopping i = true := by
  rcases (inv.covered slot).started i started with signalled | ⟨_, read⟩
  · exact signalled
  · rw [finished] at read
    have member := read trivial
    rw [ReadOf, finished] at member
    exact inv.finished workers finished (slot, i) member

/-- Once stop() has finished, every instance that was ever started has its stop flag set,
whatever the restarts did before, do meanwhile and still do. -/
theorem every_started_worker_signalled {worker : Slot → Option Bool} {running stopEvent : Bool}
    {moves : List Move}
    (reached : run (pipelineStep channels) (assembled channels worker running stopEvent) moves =
      some p) {workers : List (Slot × ℕ)} (finished : p.stop = .finished workers) (slot : Slot)
    (i : ℕ) (started : (p.slots slot).started i = true) : (p.slots slot).stopping i = true := by
  have inv : Inv channels p := run_invariant _ (Inv.assembled worker running stopEvent)
    (fun _ _ _ before step => pipelineStep_inv before step) reached
  exact inv.all_signalled finished slot i started

/-- A restart of the router that has checked both flags when stop() begins, and starts its
worker when stop() has drained all it read. -/
def lateStart : List Move :=
  List.replicate 7 (.restart .router false) ++ List.replicate 15 .stop ++
    .restart .router false :: List.replicate 6 .stop

theorem lateStart_signalled :
    ∃ p, run (pipelineStep []) (assembled [] (fun _ => some true) true false) lateStart = some p ∧
      (p.slots .router).started 1 = true ∧ (p.slots .router).stopping 1 = true := by
  have ends : (run (pipelineStep []) (assembled [] (fun _ => some true) true false)
      lateStart).map (fun p => (p.stop, (p.slots .router).started 1)) =
        some (.finished [(.audioSource, 0), (.router, 1), (.vad, 0), (.dumpWorker, 0),
          (.segmentDumpWorker, 0)], true) := by
    decide +kernel
  obtain ⟨p, reached, final⟩ := Option.map_eq_some_iff.mp ends
  obtain ⟨finished, started⟩ := Prod.ext_iff.mp final
  exact ⟨p, reached, started,
    every_started_worker_signalled reached finished .router 1 started⟩

end Runs

end EdgeVoice.StopRestart
