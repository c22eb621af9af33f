import EdgeVoice.StopRestart
import EdgeVoice.VadWorker

/-! The `running` flag over sequences of build(), start() and stop(). start() sets it before
it starts anything and takes it back in no case, so what it says depends on the workers
start() finds: it is right if none of them was started or signalled before. -/

namespace EdgeVoice.RunningFlag
open PythonText VadWorker StopRestart

/-- A one-shot thread or process: start() raises once it was started. -/
structure Worker where
  started : Bool := false
  stopping : Bool := false
deriving DecidableEq

/-- What of the settings build() goes by. -/
structure PipelineSettings where
  channels : ChannelKeys
  dump : Bool := false
  segmentDump : Bool := false
  reliability : Bool := true
  metrics : Bool := true

/-- The flags, the worker attributes, and the two that watch them. -/
structure Orchestrator where
  running : Bool := false
  stopEvent : Bool := false
  workers : Slot → Option Worker := fun _ => none
  supervisor : Option Worker := none
  metrics : Option Worker := none

variable (settings : PipelineSettings)

def getWorkers (o : Orchestrator) : List Worker :=
  (slots settings.channels.val).filterMap o.workers

section Build

def assign (slot : Slot) (o : Orchestrator) : Orchestrator :=
  { o with workers := Function.update o.workers slot (some {}) }

/-- The `_stt` dict is replaced as a whole, once all its workers are built. -/
def assignStt (o : Orchestrator) : Orchestrator :=
  { o with
    workers := fun
      | .stt channelId => if channelId ∈ settings.channels.val then some {} else none
      | slot => o.workers slot }

/-- The assignments of build(), each of which comes after a constructor that may raise. -/
def assignments : List (Orchestrator → Orchestrator) :=
  (if settings.dump then [assign .dumpWorker] else []) ++
    (if settings.segmentDump then [assign .segmentDumpWorker] else []) ++
    [assign .audioSource, assign .router, assign .vad, assignStt settings,
      fun o => { o with supervisor := if settings.reliability then some {} else none },
      fun o => { o with metrics := if settings.metrics then some {} else none }]

/-- `failsAt` is the number of assignments made before something raised, if it did. -/
def build (failsAt : Option ℕ) (o : Orchestrator) : Orchestrator :=
  let steps := assignments settings
  (steps.take (failsAt.getD steps.length)).foldl (fun o step => step o)
    { o with stopEvent := false, running := false }

end Build

section Start

/-- What may raise in start() beside a worker that was started before: the log listener, a
thread or process that cannot be started, the STT receivers or the wait for the children. -/
structure StartFaults where
  listener : Bool := false
  worker : Slot → Bool := fun _ => false
  receivers : Bool := false
  supervisor : Bool := false
  metrics : Bool := false

/-- The loop over the workers, and whether it raised. -/
def startWorkers (fault : Slot → Bool) : List Slot → Orchestrator → Orchestrator × Bool
  | [], o => (o, false)
  | slot :: left, o =>
    match o.workers slot with
    | none => startWorkers fault left o
    | some w =>
      if w.started || fault slot then (o, true)
      else
        startWorkers fault left
          { o with workers := Function.update o.workers slot (some { w with started := true }) }

/-- Supervisor or metrics, if there is one; `none` if its start() raises. -/
def startObserver (fault : Bool) : Option Worker → Option (Option Worker)
  | none => some none
  | some w => if w.started || fault then none else some (some { w with started := true })

/-- start(), and whether it raised. -/
def start (faults : StartFaults) (o : Orchestrator) : Orchestrator × Bool :=
  if o.running then (o, false)
  else if faults.listener then ({ o with running := true }, true)
  else
    let (o, raised) := startWorkers faults.worker (slots settings.channels.val)
      { o with running := true }
    if raised || faults.receivers then (o, true)
    else
      match startObserver faults.supervisor o.supervisor with
      | none => (o, true)
      | some supervisor =>
        match startObserver faults.metrics o.metrics with
        | none => ({ o with supervisor := supervisor }, true)
        | some metrics => ({ o with supervisor := supervisor, metrics := metrics }, false)

end Start

section Stop

def signalled (w : Worker) : Worker := { w with stopping := true }

def signalWorkers (signals : List Slot) (o : Orchestrator) : Orchestrator :=
  { o with
    workers := fun slot =>
      if slot ∈ signals then (o.workers slot).map signalled else o.workers slot }

/-- Where an exception cuts stop() short: in the join of metrics or of the supervisor, or
with so many workers signalled in its loop and in the `finally` after it. -/
inductive StopCut
  | metrics
  | supervisor
  | workers (drained signalled : ℕ)

def stop (cut : Option StopCut) (o : Orchestrator) : Orchestrator :=
  let o := { o with running := false, stopEvent := true, metrics := o.metrics.map signalled }
  let down := { o with supervisor := o.supervisor.map signalled }
  let all := slots settings.channels.val
  match cut with
  | some .metrics => o
  | some .supervisor => down
  | some (.workers drained last) =>
    signalWorkers (all.take last) (signalWorkers (all.take drained) down)
  | none => signalWorkers all (signalWorkers all down)

end Stop

/-- The calls of a client. `/api/start` is `start`; `/api/stop` is `stop`, then `wait`. -/
inductive Call
  | build (failsAt : Option ℕ)
  | start (faults : StartFaults)
  | stop (cut : Option StopCut)
  | wait

/-- A call's effect, and whether it raised. -/
def perform (o : Orchestrator) : Call → Orchestrator × Bool
  | .build failsAt => (build settings failsAt o, failsAt.isSome)
  | .start faults => start settings faults o
  | .stop cut => (stop settings cut o, cut.isSome)
  | .wait => (o, false)

/-- After a first build() and these calls. -/
def after (calls : List Call) : Orchestrator :=
  calls.foldl (fun o call => (perform settings o call).1) (build settings none {})

/-- What `running` must not hide. -/
def Upright (o : Orchestrator) : Prop :=
  o.running = true → ∀ w ∈ getWorkers settings o, w.started = true ∧ w.stopping = false

/-- After the call `running` is right, and if it is a start() that raised, it is off and the
stop event does not contradict it. -/
structure Truthful (call : Call) (result : Orchestrator × Bool) : Prop where
  upright : Upright settings result.1
  raised : ∀ faults, call = .start faults → result.2 = true →
    result.1.running = false ∧ ¬(result.1.running = true ∧ result.1.stopEvent = true)

/-- Nothing start() is about to start was started before, no worker is signalled, and
nothing else raises. -/
structure Startable (faults : StartFaults) (o : Orchestrator) : Prop where
  workers : ∀ w ∈ getWorkers settings o, w.started = false ∧ w.stopping = false
  observers : ∀ w, o.supervisor = some w ∨ o.metrics = some w → w.started = false
  listener : faults.listener = false
  faultless : ∀ slot ∈ slots settings.channels.val, (o.workers slot).isSome = true →
    faults.worker slot = false
  receivers : faults.receivers = false
  supervisor : o.supervisor.isSome = true → faults.supervisor = false
  metrics : o.metrics.isSome = true → faults.metrics = false

/-- The condition on a call: a start() that is to take effect finds what it can start. -/
def Meets (o : Orchestrator) : Call → Prop
  | .start faults => o.running = true ∨ Startable settings faults o
  | _ => True

variable {settings}

theorem slots_nodup (channels : ChannelKeys) : (slots channels.val).Nodup := by
  have distinct : (channels.val.map Slot.stt).Nodup :=
    List.Nodup.map (fun _ _ same => by cases same; rfl) channels.property
  simp [slots, List.nodup_append, distinct]

section StartLemmas

theorem startWorkers_frame (fault : Slot → Bool) (left : List Slot) (o : Orchestrator) :
    (startWorkers fault left o).1.running = o.running ∧
      (startWorkers fault left o).1.supervisor = o.supervisor ∧
      (startWorkers fault left o).1.metrics = o.metrics := by
  induction left generalizing o with
  | nil => exact ⟨rfl, rfl, rfl⟩
  | cons slot left ih =>
    unfold startWorkers
    split
    · exact ih o
    · split
      · exact ⟨rfl, rfl, rfl⟩
      · exact ih _

/-- A worker start() can start. -/
def Unstarted (fault : Slot → Bool) (o : Orchestrator) (slot : Slot) : Prop :=
  ∀ w, o.workers slot = some w → w.started = false ∧ fault slot = false

/-- The loop raises unless it can start every worker, and then it has started them all. -/
theorem startWorkers_spec (fault : Slot → Bool) {left : List Slot} (distinct : left.Nodup)
    (o : Orchestrator) :
    ((startWorkers fault left o).2 = false ↔ ∀ slot ∈ left, Unstarted fault o slot) ∧
      ((startWorkers fault left o).2 = false → ∀ slot,
        (startWorkers fault left o).1.workers slot =
          if slot ∈ left then (o.workers slot).map fun w => { w with started := true }
          else o.workers slot) := by
  induction left generalizing o with
  | nil => simp [startWorkers]
  | cons slot left ih =>
    obtain ⟨new, distinct⟩ := List.nodup_cons.mp distinct
    unfold startWorkers
    cases at_slot : o.workers slot with
    | none =>
      obtain ⟨raises, started⟩ := ih distinct o
      simp only
      refine ⟨?_, fun done other => ?_⟩
      · rw [raises, List.forall_mem_cons]
        exact (and_iff_right (by simp [Unstarted, at_slot])).symm
      · rw [started done other]
        by_cases same : other = slot
        · simp [same, new, at_slot]
        · simp [same]
    | some w =>
      simp only
      by_cases stuck : (w.started || fault slot) = true
      · rw [if_pos stuck]
        refine ⟨iff_of_false (by simp) fun all => ?_, by simp⟩
        have first := all slot (List.mem_cons_self ..) w at_slot
        simp [first.1, first.2] at stuck
      · rw [if_neg stuck]
        simp only [Bool.or_eq_true, not_or, Bool.not_eq_true] at stuck
        obtain ⟨raises, started⟩ := ih distinct
          { o with workers := Function.update o.workers slot (some { w with started := true }) }
        have elsewhere (other : Slot) (member : other ∈ left) :
            Function.update o.workers slot (some { w with started := true }) other =
              o.workers other := by
          refine Function.update_of_ne (fun same => new ?_) _ _
          rw [← same]
          exact member
        refine ⟨?_, fun done other => ?_⟩
        · rw [raises, List.forall_mem_cons]
          have first : Unstarted fault o slot := by
            intro w' at_slot'
            rw [at_slot] at at_slot'
            cases at_slot'
            exact stuck
          refine Iff.trans ?_ (and_iff_right first).symm
          refine forall_congr' fun other => forall_congr' fun member => ?_
          simp only [Unstarted, elsewhere other member]
        · rw [started done other]
          by_cases same : other = slot
          · simp [same, new, at_slot]
          · simp [same]

theorem startObserver_eq_none (fault : Bool) (observer : Option Worker) :
    startObserver fault observer = none ↔
      ∃ w, observer = some w ∧ (w.started = true ∨ fault = true) := by
  cases observer with
  | none => simp [startObserver]
  | some w =>
    cases up : w.started with
    | true => simp [startObserver, up]
    | false => simp [startObserver, up]

/-- A start() that takes effect sets the flag and leaves it; it raises unless it can start
everything, and then all workers are started. -/
theorem start_spec (faults : StartFaults) {o : Orchestrator} (idle : o.running = false) :
    (start settings faults o).1.running = true ∧
      ((start settings faults o).2 = false ↔
        (∀ slot ∈ slots settings.channels.val, Unstarted faults.worker o slot) ∧
          faults.listener = false ∧ faults.receivers = false ∧
          startObserver faults.supervisor o.supervisor ≠ none ∧
          startObserver faults.metrics o.metrics ≠ none) ∧
      ((start settings faults o).2 = false → ∀ slot ∈ slots settings.channels.val,
        (start settings faults o).1.workers slot =
          (o.workers slot).map fun w => { w with started := true }) := by
  have off : ¬o.running = true := by simp [idle]
  unfold start
  rw [if_neg off]
  by_cases listener : faults.listener = true
  · rw [if_pos listener]
    exact ⟨rfl, by simp [listener], by simp⟩
  · rw [if_neg listener]
    have quiet : faults.listener = false := by simpa using listener
    obtain ⟨running, supervisor, metrics⟩ := startWorkers_frame faults.worker
      (slots settings.channels.val) { o with running := true }
    obtain ⟨raises, started⟩ := startWorkers_spec faults.worker (slots_nodup settings.channels)
      { o with running := true }
    have same : (∀ slot ∈ slots settings.channels.val,
        Unstarted faults.worker { o with running := true } slot) ↔
          ∀ slot ∈ slots settings.channels.val, Unstarted faults.worker o slot := Iff.rfl
    rw [same] at raises
    generalize startWorkers faults.worker (slots settings.channels.val)
      { o with running := true } = result at running supervisor metrics raises started
    obtain ⟨o', raised⟩ := result
    simp only at running supervisor metrics raises started ⊢
    by_cases stopped : (raised || faults.receivers) = true
    · rw [if_pos stopped]
      refine ⟨running, iff_of_false (by simp) fun all => ?_, by simp⟩
      rw [raises.mpr all.1, all.2.2.1] at stopped
      cases stopped
    · rw [if_neg stopped]
      simp only [Bool.or_eq_true, not_or, Bool.not_eq_true] at stopped
      have all := raises.mp stopped.1
      have workers (slot : Slot) (member : slot ∈ slots settings.channels.val) := by
        have now := started stopped.1 slot
        rw [if_pos member] at now
        exact now
      rw [supervisor, metrics]
      cases up : startObserver faults.supervisor o.supervisor with
      | none => exact ⟨running, by simp, by simp⟩
      | some supervisor' =>
        cases upMetrics : startObserver faults.metrics o.metrics with
        | none => exact ⟨running, by simp, by simp⟩
        | some metrics' =>
          simp only
          exact ⟨running, iff_of_true trivial ⟨all, quiet, stopped.2, by simp, by simp⟩,
            fun _ => workers⟩

theorem mem_getWorkers {o : Orchestrator} {w : Worker} :
    w ∈ getWorkers settings o ↔
      ∃ slot ∈ slots settings.channels.val, o.workers slot = some w := by
  simp [getWorkers, List.mem_filterMap]

/-- The condition in the terms of the loop. -/
theorem startable_iff (faults : StartFaults) (o : Orchestrator) :
    Startable settings faults o ↔
      ((∀ slot ∈ slots settings.channels.val, Unstarted faults.worker o slot) ∧
          faults.listener = false ∧ faults.receivers = false ∧
          startObserver faults.supervisor o.supervisor ≠ none ∧
          startObserver faults.metrics o.metrics ≠ none) ∧
        ∀ w ∈ getWorkers settings o, w.stopping = false := by
  constructor
  · intro h
    refine ⟨⟨?_, h.listener, h.receivers, ?_, ?_⟩, fun w member => (h.workers w member).2⟩
    · intro slot member w at_slot
      exact ⟨(h.workers w (mem_getWorkers.mpr ⟨slot, member, at_slot⟩)).1,
        h.faultless slot member (by simp [at_slot])⟩
    · intro raises
      obtain ⟨w, observer, started | fault⟩ := (startObserver_eq_none _ _).mp raises
      · simp [h.observers w (Or.inl observer)] at started
      · simp [h.supervisor (by simp [observer])] at fault
    · intro raises
      obtain ⟨w, observer, started | fault⟩ := (startObserver_eq_none _ _).mp raises
      · simp [h.observers w (Or.inr observer)] at started
      · simp [h.metrics (by simp [observer])] at fault
  · rintro ⟨⟨workers, listener, receivers, supervisor, metrics⟩, clear⟩
    have fresh (fault : Bool) (observer : Option Worker)
        (starts : startObserver fault observer ≠ none) (w : Worker) (some_w : observer = some w) :
        w.started = false ∧ fault = false := by
      have free := mt (startObserver_eq_none fault observer).mpr starts
      cases up : w.started with
      | true => exact absurd ⟨w, some_w, Or.inl up⟩ free
      | false =>
        cases raised : fault with
        | true => exact absurd ⟨w, some_w, Or.inr raised⟩ free
        | false => exact ⟨rfl, rfl⟩
    refine ⟨?_, ?_, listener, ?_, receivers, ?_, ?_⟩
    · intro w member
      obtain ⟨slot, listed, at_slot⟩ := mem_getWorkers.mp member
      exact ⟨(workers slot listed w at_slot).1, clear w member⟩
    · rintro w (observer | observer)
      · exact (fresh _ _ supervisor w observer).1
      · exact (fresh _ _ metrics w observer).1
    · intro slot listed some_worker
      obtain ⟨w, at_slot⟩ := Option.isSome_iff_exists.mp some_worker
      exact (workers slot listed w at_slot).2
    · intro some_observer
      obtain ⟨w, observer⟩ := Option.isSome_iff_exists.mp some_observer
      exact (fresh _ _ supervisor w observer).2
    · intro some_observer
      obtain ⟨w, observer⟩ := Option.isSome_iff_exists.mp some_observer
      exact (fresh _ _ metrics w observer).2

end StartLemmas

section Calls

theorem assignments_idle (o : Orchestrator) :
    ∀ step ∈ assignments settings, (step o).running = o.running := by
  simp only [assignments, List.mem_append, List.mem_cons, List.not_mem_nil, or_false]
  rintro step ((dump | segmentDump) | rfl | rfl | rfl | rfl | rfl | rfl)
  · split at dump
    · rw [List.mem_singleton.mp dump]
      rfl
    · cases dump
  · split at segmentDump
    · rw [List.mem_singleton.mp segmentDump]
      rfl
    · cases segmentDump
  all_goals rfl

theorem build_idle (failsAt : Option ℕ) (o : Orchestrator) :
    (build settings failsAt o).running = false := by
  have kept (steps : List (Orchestrator → Orchestrator)) (o : Orchestrator)
      (all : ∀ step ∈ steps, step ∈ assignments settings) :
      (steps.foldl (fun o step => step o) o).running = o.running := by
    induction steps generalizing o with
    | nil => rfl
    | cons step steps ih =>
      rw [List.foldl_cons, ih _ fun later member => all later (List.mem_cons_of_mem step member)]
      exact assignments_idle o step (all step (List.mem_cons_self ..))
  unfold build
  rw [kept _ _ fun step member => List.mem_of_mem_take member]

theorem stop_idle (cut : Option StopCut) (o : Orchestrator) :
    (stop settings cut o).running = false := by
  cases cut with
  | none => rfl
  | some cut => cases cut <;> rfl

/-- A start() that takes effect is truthful just when it can start what it finds. -/
theorem start_truthful_iff (faults : StartFaults) {o : Orchestrator} (idle : o.running = false) :
    Truthful settings (.start faults) (start settings faults o) ↔
      Startable settings faults o := by
  obtain ⟨running, raises, started⟩ := @start_spec settings faults o idle
  rw [startable_iff, ← raises]
  constructor
  · intro truthful
    have done : (start settings faults o).2 = false := by
      cases raised : (start settings faults o).2 with
      | false => rfl
      | true =>
        have off := (truthful.raised faults rfl raised).1
        rw [running] at off
        cases off
    refine ⟨done, fun w member => ?_⟩
    obtain ⟨slot, listed, at_slot⟩ := mem_getWorkers.mp member
    have now := started done slot listed
    rw [at_slot, Option.map_some] at now
    exact (truthful.upright running _ (mem_getWorkers.mpr ⟨slot, listed, now⟩)).2
  · rintro ⟨done, clear⟩
    refine ⟨fun _ w member => ?_, fun _ _ raised => ?_⟩
    · obtain ⟨slot, listed, at_slot⟩ := mem_getWorkers.mp member
      rw [started done slot listed, Option.map_eq_some_iff] at at_slot
      obtain ⟨w', before, rfl⟩ := at_slot
      exact ⟨rfl, clear w' (mem_getWorkers.mpr ⟨slot, listed, before⟩)⟩
    · rw [done] at raised
      cases raised

/-- From a state in which `running` is right, a call is truthful just when it meets the
condition. -/
theorem truthful_iff {o : Orchestrator} (upright : Upright settings o) (call : Call) :
    Truthful settings call (perform settings o call) ↔ Meets settings o call := by
  have quiet {result : Orchestrator × Bool} (off : result.1.running = false) {call : Call}
      (other : ∀ faults, call ≠ .start faults) : Truthful settings call result :=
    ⟨fun on => by simp [off] at on, fun faults same => absurd same (other faults)⟩
  cases call with
  | build failsAt => exact iff_of_true (quiet (build_idle failsAt o) (by simp)) trivial
  | stop cut => exact iff_of_true (quiet (stop_idle cut o) (by simp)) trivial
  | wait => exact iff_of_true ⟨upright, by simp⟩ trivial
  | start faults =>
    cases running : o.running with
    | true =>
      have same : start settings faults o = (o, false) := if_pos running
      refine iff_of_true ?_ (Or.inl running)
      rw [perform, same]
      exact ⟨upright, by simp⟩
    | false =>
      rw [perform, start_truthful_iff faults running]
      simp [Meets, running]

theorem after_concat (past : List Call) (call : Call) :
    after settings (past ++ [call]) = (perform settings (after settings past) call).1 := by
  simp [after]

theorem after_nil_upright : Upright settings (after settings []) := by
  intro on
  rw [after, List.foldl_nil, build_idle] at on
  cases on

variable (settings)

/-- Every sequence of calls after a first build(): each leaves `running` truthful if and
only if each start() that is to take effect finds what it can start. -/
theorem running_truthful_iff (calls : List Call) :
    (∀ past call later, calls = past ++ call :: later →
        Truthful settings call (perform settings (after settings past) call)) ↔
      ∀ past call later, calls = past ++ call :: later →
        Meets settings (after settings past) call := by
  constructor
  · intro truthful past call later whole
    have upright : Upright settings (after settings past) := by
      cases past using List.reverseRecOn with
      | nil => exact after_nil_upright
      | append_singleton earlier last =>
        rw [after_concat]
        exact (truthful earlier last (call :: later) (by simp [whole])).upright
    exact (truthful_iff upright call).mp (truthful past call later whole)
  · intro meets past call later whole
    have upright (past : List Call) (left : List Call) (whole : calls = past ++ left) :
        Upright settings (after settings past) := by
      induction past using List.reverseRecOn generalizing left with
      | nil => exact after_nil_upright
      | append_singleton earlier last ih =>
        have split : calls = earlier ++ last :: left := by simp [whole]
        rw [after_concat]
        exact ((truthful_iff (ih _ split) last).mpr (meets earlier last left split)).upright
    exact (truthful_iff (upright past _ whole) call).mpr (meets past call later whole)

/-- One channel, no dumps, supervisor and metrics. -/
def oneChannel : PipelineSettings := { channels := channelR }

/-- `/api/start`, `/api/stop`, `/api/start`: the third call raises, as all workers were
started before, and leaves `running` set with every worker signalled. -/
theorem restart_leaves_running :
    ∃ result, result =
        perform oneChannel (after oneChannel [.start {}, .stop none, .wait]) (.start {}) ∧
      result.2 = true ∧ result.1.running = true ∧ result.1.stopEvent = true ∧
      getWorkers oneChannel result.1 = List.replicate 4 ⟨true, true⟩ ∧
      ¬Truthful oneChannel (.start {}) result := by
  have raised : (perform oneChannel (after oneChannel [.start {}, .stop none, .wait])
      (.start {})).2 = true := by
    decide +kernel
  have running : (perform oneChannel (after oneChannel [.start {}, .stop none, .wait])
      (.start {})).1.running = true := by
    decide +kernel
  refine ⟨_, rfl, raised, running, by decide +kernel, by decide +kernel, fun truthful => ?_⟩
  have off := (truthful.raised {} rfl raised).1
  rw [running] at off
  cases off

end Calls

end EdgeVoice.RunningFlag
