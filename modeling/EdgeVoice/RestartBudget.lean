import EdgeVoice.SlidingWindow
import EdgeVoice.StepSystem
import EdgeVoice.Supervisor

/-! The supervisor's scan thread and its restart threads. A scan takes a target's flags
under the lock, asks its callables without it, reads the clock and takes the lock again to
spend a restart or give up; a restart thread takes it twice on its way out. Clock, scan
and restart threads interleave freely, and every callable may take any time, fail or raise. -/

namespace EdgeVoice.RestartBudget
open PythonText StepSystem Supervisor SlidingWindow

section Regions

variable (cfg : SupervisorConfig)

/-- What `_trigger_restart` has left of the deque when it looks at the budget. -/
abbrev pruned (now : ℚ) (ts : TargetState) : List ℚ := recent now cfg.restartWindowS ts.restarts

theorem triggerRestart_eq (now : ℚ) (ts : TargetState) :
    triggerRestart cfg now ts =
      if cfg.maxRestarts ≤ (pruned cfg now ts).length then
        { ts with restarts := pruned cfg now ts, degraded := true, state := .degraded }
      else
        { ts with
          restarts := pruned cfg now ts ++ [now], restarting := true, state := .restarting } := rfl

/-- The region of `_restart_worker` after a restart that did not raise. -/
def publishRunning (ts : TargetState) : TargetState :=
  if ts.degraded then ts else { ts with state := .running }

/-- The region in its `finally`. -/
def clearRestarting (ts : TargetState) : TargetState := { ts with restarting := false }

end Regions

/-- Where a restart thread stands: in `pending_loss` or `restart`, before the region that
publishes, or before the one that clears. -/
inductive RestartThread
  | restarting
  | restarted
  | leaving
deriving DecidableEq

/-- A target with the threads that restart it, and the times they were dispatched at. -/
structure Watched where
  target : TargetState := {}
  threads : List RestartThread := []
  dispatched : List ℚ := []
deriving DecidableEq

variable (cfg : SupervisorConfig) (stallDetection : Str → Bool)

/-- A target `_failure_reason` has found failing. -/
structure Failing where
  name : Str
  scannedAt : ℚ
  readings : Readings
  reason : FailureReason
  found : failureReason cfg (stallDetection name) readings scannedAt = some reason

/-- The scan thread: between scans, before the targets that are left, past a target's flags,
or in `_trigger_restart` before and after it has read the clock. -/
inductive ScanPoint
  | waiting
  | scanning (now : ℚ) (left : List Str)
  | judging (now : ℚ) (name : Str) (left : List Str)
  | found (now : ℚ) (failing : Failing cfg stallDetection) (left : List Str)
  | triggering (now : ℚ) (failing : Failing cfg stallDetection) (triggeredAt : ℚ)
    (left : List Str)
  | died

structure Monitor where
  clock : ℚ
  scan : ScanPoint cfg stallDetection := .waiting
  targets : Str → Watched := fun _ => {}

/-- The clock goes on; the scan thread moves, or dies of a callable that raises; a restart
thread's restart ends; a restart thread takes its next region. -/
inductive Move
  | tick (now : ℚ)
  | scan (readings : Readings)
  | raises
  | returned (name : Str) (thread : ℕ) (raised : Bool)
  | region (name : Str) (thread : ℕ)

/-- The region of `_trigger_restart`, and the start of the thread after it. -/
def trigger (now : ℚ) (w : Watched) : Watched :=
  if cfg.maxRestarts ≤ (pruned cfg now w.target).length then
    { w with target := triggerRestart cfg now w.target }
  else
    { target := triggerRestart cfg now w.target
      threads := w.threads ++ [.restarting]
      dispatched := w.dispatched ++ [now] }

/-- The next region of a restart thread; the second one is its last. -/
def nextRegion (thread : ℕ) (w : Watched) : Option Watched :=
  match w.threads[thread]? with
  | some .restarted =>
    some { w with target := publishRunning w.target, threads := w.threads.set thread .leaving }
  | some .leaving =>
    some { w with target := clearRestarting w.target, threads := w.threads.eraseIdx thread }
  | _ => none

/-- The end of `restart()`. -/
def restartReturns (thread : ℕ) (raised : Bool) (w : Watched) : Option Watched :=
  match w.threads[thread]? with
  | some .restarting =>
    some { w with threads := w.threads.set thread (if raised then .leaving else .restarted) }
  | _ => none

variable {cfg stallDetection}

/-- The scan thread's next step over the targets `names`. -/
def scanStep (names : List Str) (readings : Readings) (m : Monitor cfg stallDetection) :
    Option (Monitor cfg stallDetection) :=
  match m.scan with
  | .waiting => some { m with scan := .scanning m.clock names }
  | .scanning _ [] => some { m with scan := .waiting }
  | .scanning now (name :: left) =>
    if (m.targets name).target.degraded || (m.targets name).target.restarting then
      some { m with scan := .scanning now left }
    else some { m with scan := .judging now name left }
  | .judging now name left =>
    match verdict : failureReason cfg (stallDetection name) readings now with
    | none => some { m with scan := .scanning now left }
    | some reason => some { m with scan := .found now ⟨name, now, readings, reason, verdict⟩ left }
  | .found now failing left => some { m with scan := .triggering now failing m.clock left }
  | .triggering now failing triggeredAt left =>
    some { m with
      scan := .scanning now left
      targets := Function.update m.targets failing.name
        (trigger cfg triggeredAt (m.targets failing.name)) }
  | .died => none

def moveStep (names : List Str) (m : Monitor cfg stallDetection) :
    Move → Option (Monitor cfg stallDetection)
  | .tick now => if m.clock ≤ now then some { m with clock := now } else none
  | .scan readings => scanStep names readings m
  | .raises => some { m with scan := .died }
  | .returned name thread raised =>
    (restartReturns thread raised (m.targets name)).map fun w =>
      { m with targets := Function.update m.targets name w }
  | .region name thread =>
    (nextRegion thread (m.targets name)).map fun w =>
      { m with targets := Function.update m.targets name w }

/-- `status()` of one target. -/
def status (ts : TargetState) : TargetStatus × ℕ := (ts.state, ts.restarts.length)

section Books

variable (cfg)

/-- A target's books up to a time: its deque is what the window still sees of the
dispatches, and a restart thread is there exactly while the target is restarting. -/
structure Sound (upto : ℚ) (w : Watched) : Prop where
  sorted : w.dispatched.Pairwise (· ≤ ·)
  past : ∀ t ∈ w.dispatched, t ≤ upto
  log : Log upto cfg.restartWindowS w.target.restarts w.dispatched
  bounded : Bounded cfg.maxRestarts cfg.restartWindowS w.dispatched
  single : w.threads = [] ∧ w.target.restarting = false ∨
    (∃ thread, w.threads = [thread]) ∧ w.target.restarting = true ∧ w.target.degraded = false
  degraded : w.target.degraded = true → w.target.state = .degraded

theorem Sound.fresh (upto : ℚ) : Sound cfg upto {} :=
  ⟨by simp, by simp, Log.nil _ _, bounded_nil _ _, Or.inl ⟨rfl, rfl⟩, by simp⟩

variable {cfg} {upto later : ℚ} {w w' : Watched}

theorem Sound.mono (h : Sound cfg upto w) (le : upto ≤ later) : Sound cfg later w :=
  ⟨h.sorted, fun t member => (h.past t member).trans le, h.log.mono le, h.bounded, h.single,
    h.degraded⟩

theorem Sound.idle (h : Sound cfg upto w) (still : w.target.restarting = false) :
    w.threads = [] := by
  rcases h.single with ⟨none_running, _⟩ | ⟨_, restarting, _⟩
  · exact none_running
  · rw [still] at restarting
    cases restarting

/-- The deque the budget is compared with is the trailing window. -/
theorem Sound.pruned_eq (h : Sound cfg upto w) :
    pruned cfg upto w.target = within (upto - cfg.restartWindowS) cfg.restartWindowS w.dispatched :=
  h.log.recent_eq h.sorted (le_refl upto) h.past

/-- Spending a restart or giving up, on a target that is not being restarted. -/
theorem Sound.trigger (h : Sound cfg upto w) (idle : w.threads = [])
    (working : w.target.degraded = false) : Sound cfg upto (trigger cfg upto w) := by
  have still : w.target.restarting = false := by
    rcases h.single with ⟨_, still⟩ | ⟨⟨thread, running⟩, _⟩
    · exact still
    · rw [idle] at running
      cases running
  unfold RestartBudget.trigger
  rw [triggerRestart_eq]
  split
  · exact ⟨h.sorted, h.past, h.log.prune (le_refl upto), h.bounded, Or.inl ⟨idle, still⟩,
      fun _ => rfl⟩
  · rename_i room
    refine ⟨?_, ?_, (h.log.prune (le_refl upto)).append upto, ?_, ?_, ?_⟩
    · refine List.pairwise_append.mpr ⟨h.sorted, List.pairwise_singleton _ _, ?_⟩
      intro t member u last
      rw [List.mem_singleton.mp last]
      exact h.past t member
    · intro t member
      rcases List.mem_append.mp member with old | new
      · exact h.past t old
      · exact (List.mem_singleton.mp new).le
    · refine h.bounded.append h.past ?_
      rw [← h.pruned_eq]
      omega
    · exact Or.inr ⟨⟨.restarting, by simp [idle]⟩, rfl, working⟩
    · intro degraded
      rw [working] at degraded
      cases degraded

/-- What a restart thread's steps leave as it is. -/
structure Kept (w w' : Watched) : Prop where
  running : w.threads ≠ []
  dispatched : w'.dispatched = w.dispatched
  degraded : w'.target.degraded = w.target.degraded

theorem restartReturns_sound {thread : ℕ} {raised : Bool} (h : Sound cfg upto w)
    (step : restartReturns thread raised w = some w') : Sound cfg upto w' ∧ Kept w w' := by
  unfold restartReturns at step
  split at step
  · rename_i at_thread
    cases step
    rcases h.single with ⟨none_running, _⟩ | ⟨⟨only, running⟩, restarting, working⟩
    · simp [none_running] at at_thread
    · refine ⟨⟨h.sorted, h.past, h.log, h.bounded, Or.inr ⟨?_, restarting, working⟩, h.degraded⟩,
        by simp [running], rfl, rfl⟩
      refine List.length_eq_one_iff.mp ?_
      rw [List.length_set, running]
      rfl
  · cases step

theorem nextRegion_sound {thread : ℕ} (h : Sound cfg upto w)
    (step : nextRegion thread w = some w') : Sound cfg upto w' ∧ Kept w w' := by
  unfold nextRegion at step
  rcases h.single with ⟨none_running, _⟩ | ⟨⟨only, running⟩, restarting, working⟩
  · simp [none_running] at step
  · have nonempty : w.threads ≠ [] := by simp [running]
    split at step
    · -- the target cannot be degraded, so the state is published
      cases step
      have published : publishRunning w.target = { w.target with state := .running } := by
        simp [publishRunning, working]
      simp only [published]
      refine ⟨⟨h.sorted, h.past, h.log, h.bounded, Or.inr ⟨?_, restarting, working⟩, ?_⟩,
        nonempty, rfl, rfl⟩
      · refine List.length_eq_one_iff.mp ?_
        rw [List.length_set, running]
        rfl
      · intro degraded
        simp [working] at degraded
    · rename_i at_thread
      cases step
      have first : thread = 0 := by
        rw [running] at at_thread
        obtain ⟨bound, _⟩ := List.getElem?_eq_some_iff.mp at_thread
        simpa using bound
      refine ⟨⟨h.sorted, h.past, h.log, h.bounded, Or.inl ⟨?_, rfl⟩, h.degraded⟩,
        nonempty, rfl, rfl⟩
      simp [running, first]
    · cases step

end Books

section Runs

/-- The target the scan thread has found neither degraded nor restarting. -/
def ScanPoint.looked : ScanPoint cfg stallDetection → Option Str
  | .judging _ name _ => some name
  | .found _ failing _ => some failing.name
  | .triggering _ failing _ _ => some failing.name
  | _ => none

/-- The time the scan thread will trigger at, if it has read it. -/
def horizon (m : Monitor cfg stallDetection) : ℚ :=
  match m.scan with
  | .triggering _ _ triggeredAt _ => triggeredAt
  | _ => m.clock

structure Inv (m : Monitor cfg stallDetection) : Prop where
  behind : horizon m ≤ m.clock
  sound : ∀ name, Sound cfg (horizon m) (m.targets name)
  looked : ∀ name, m.scan.looked = some name →
    (m.targets name).threads = [] ∧ (m.targets name).target.degraded = false

theorem Inv.fresh (clock : ℚ) : Inv ({ clock := clock } : Monitor cfg stallDetection) :=
  ⟨le_refl clock, fun _ => Sound.fresh cfg clock, by simp [ScanPoint.looked]⟩

variable {m m' : Monitor cfg stallDetection}

/-- The scan thread moves on without touching a target. -/
theorem Inv.rescan (h : Inv m) (scan : ScanPoint cfg stallDetection)
    (onward : horizon { m with scan := scan } = m.clock)
    (looked : ∀ name, scan.looked = some name →
      (m.targets name).threads = [] ∧ (m.targets name).target.degraded = false) :
    Inv { m with scan := scan } :=
  ⟨onward.le, fun name => (h.sound name).mono (h.behind.trans onward.ge), looked⟩

/-- All that a move can do to a target. -/
inductive TargetMove (m m' : Monitor cfg stallDetection) (name : Str) : Prop
  | same (unchanged : m'.targets name = m.targets name)
  | triggered (now : ℚ) (failing : Failing cfg stallDetection) (triggeredAt : ℚ) (left : List Str)
    (at_trigger : m.scan = .triggering now failing triggeredAt left) (own : failing.name = name)
    (result : m'.targets name = trigger cfg triggeredAt (m.targets name))
  | thread (kept : Kept (m.targets name) (m'.targets name))

/-- A restart thread's step on its target. -/
theorem Inv.thread (h : Inv m) {name : Str} {w : Watched} (sound : Sound cfg (horizon m) w)
    (kept : Kept (m.targets name) w) :
    Inv { m with targets := Function.update m.targets name w } ∧
      ∀ other, TargetMove m { m with targets := Function.update m.targets name w } other := by
  have elsewhere (other : Str) (apart : other ≠ name) :
      Function.update m.targets name w other = m.targets other := Function.update_of_ne apart _ _
  refine ⟨⟨h.behind, fun other => ?_, fun other looked => ?_⟩, fun other => ?_⟩
  · by_cases own : other = name
    · subst own
      simp only [Function.update_self]
      exact sound
    · simp only [elsewhere other own]
      exact h.sound other
  · have idle := h.looked other looked
    have apart : other ≠ name := fun own => kept.running (own ▸ idle.1)
    simp only [elsewhere other apart]
    exact idle
  · by_cases own : other = name
    · subst own
      exact .thread (by simpa using kept)
    · exact .same (elsewhere other own)

/-- The scan thread's step: the targets stay but for the one a trigger is about. -/
theorem scanStep_inv (names : List Str) (readings : Readings) (h : Inv m)
    (step : scanStep names readings m = some m') : Inv m' ∧ ∀ name, TargetMove m m' name := by
  unfold scanStep at step
  split at step
  · cases step
    exact ⟨h.rescan _ rfl (by simp [ScanPoint.looked]), fun _ => .same rfl⟩
  · cases step
    exact ⟨h.rescan _ rfl (by simp [ScanPoint.looked]), fun _ => .same rfl⟩
  · rename_i now name left at_target
    split at step
    · cases step
      exact ⟨h.rescan _ rfl (by simp [ScanPoint.looked]), fun _ => .same rfl⟩
    · rename_i flags
      cases step
      simp only [Bool.or_eq_true, not_or, Bool.not_eq_true] at flags
      refine ⟨h.rescan _ rfl ?_, fun _ => .same rfl⟩
      intro other looked
      cases looked
      exact ⟨(h.sound name).idle flags.2, flags.1⟩
  · rename_i now name left at_target
    have idle := h.looked name (by rw [at_target]; rfl)
    split at step
    · cases step
      exact ⟨h.rescan _ rfl (by simp [ScanPoint.looked]), fun _ => .same rfl⟩
    · cases step
      refine ⟨h.rescan _ rfl ?_, fun _ => .same rfl⟩
      intro other looked
      cases looked
      exact idle
  · rename_i now failing left at_target
    cases step
    refine ⟨h.rescan _ rfl ?_, fun _ => .same rfl⟩
    intro other looked
    refine h.looked other ?_
    rw [at_target]
    exact looked
  · rename_i now failing triggeredAt left at_target
    cases step
    have level : horizon m = triggeredAt := by rw [horizon, at_target]
    obtain ⟨idle, working⟩ := h.looked failing.name (by rw [at_target]; rfl)
    have elsewhere (other : Str) (apart : other ≠ failing.name) :
        Function.update m.targets failing.name
          (trigger cfg triggeredAt (m.targets failing.name)) other = m.targets other :=
      Function.update_of_ne apart _ _
    refine ⟨⟨le_refl _, fun other => ?_, by simp [ScanPoint.looked]⟩, fun other => ?_⟩
    · refine Sound.mono ?_ h.behind
      by_cases own : other = failing.name
      · subst own
        have sound := (h.sound failing.name)
        rw [level] at sound ⊢
        simpa using sound.trigger idle working
      · simp only [elsewhere other own]
        exact h.sound other
    · by_cases own : other = failing.name
      · subst own
        exact .triggered now failing triggeredAt left at_target rfl (by simp)
      · exact .same (elsewhere other own)
  · cases step

/-- The step lemma: the invariant is kept, and what a move does to each target. -/
theorem moveStep_inv {names : List Str} {move : Move} (h : Inv m)
    (step : moveStep names m move = some m') : Inv m' ∧ ∀ name, TargetMove m m' name := by
  cases move with
  | tick now =>
    simp only [moveStep] at step
    split at step
    · rename_i later
      cases step
      have onward : horizon m ≤ horizon { m with clock := now } ∧
          horizon { m with clock := now } ≤ now := by
        have behind := h.behind
        unfold horizon at behind ⊢
        cases at_point : m.scan with
        | triggering scanned failing triggeredAt left =>
          simp only [at_point] at behind ⊢
          exact ⟨le_refl _, behind.trans later⟩
        | _ => exact ⟨later, le_refl _⟩
      exact ⟨⟨onward.2, fun name => (h.sound name).mono onward.1, h.looked⟩, fun _ => .same rfl⟩
    · cases step
  | scan readings => exact scanStep_inv names readings h step
  | raises =>
    cases step
    exact ⟨h.rescan _ rfl (by simp [ScanPoint.looked]), fun _ => .same rfl⟩
  | returned name thread raised =>
    obtain ⟨w, moved, rfl⟩ := Option.map_eq_some_iff.mp step
    obtain ⟨sound, kept⟩ := restartReturns_sound (h.sound name) moved
    exact h.thread sound kept
  | region name thread =>
    obtain ⟨w, moved, rfl⟩ := Option.map_eq_some_iff.mp step
    obtain ⟨sound, kept⟩ := nextRegion_sound (h.sound name) moved
    exact h.thread sound kept

theorem run_inv {names : List Str} {clock : ℚ} {moves : List Move}
    (reached : run (moveStep names) ({ clock := clock } : Monitor cfg stallDetection) moves =
      some m) : Inv m :=
  run_invariant _ (Inv.fresh clock) (fun _ _ _ before step => (moveStep_inv before step).1) reached

/-- A target gives up at a trigger, with the whole budget spent in the trailing window. -/
theorem degrades_at_trigger {name : Str} (h : Inv m) (moved : TargetMove m m' name)
    (working : (m.targets name).target.degraded = false)
    (degraded : (m'.targets name).target.degraded = true) :
    ∃ now failing triggeredAt left, m.scan = .triggering now failing triggeredAt left ∧
      failing.name = name ∧
      (within (triggeredAt - cfg.restartWindowS) cfg.restartWindowS
        (m.targets name).dispatched).length = cfg.maxRestarts := by
  cases moved with
  | same unchanged =>
    rw [unchanged, working] at degraded
    cases degraded
  | triggered now failing triggeredAt left at_trigger own result =>
    refine ⟨now, failing, triggeredAt, left, at_trigger, own, ?_⟩
    have sound := h.sound name
    rw [horizon, at_trigger] at sound
    have spent : cfg.maxRestarts ≤ (pruned cfg triggeredAt (m.targets name).target).length := by
      by_contra room
      rw [result, trigger, if_neg room, triggerRestart_eq, if_neg room] at degraded
      simp [working] at degraded
    rw [sound.pruned_eq] at spent
    exact le_antisymm (sound.bounded _) spent
  | thread kept =>
    rw [kept.degraded, working] at degraded
    cases degraded

/-- A target that has given up is never restarted again. -/
theorem stays_degraded {name : Str} (h : Inv m) (moved : TargetMove m m' name)
    (degraded : (m.targets name).target.degraded = true) :
    (m'.targets name).target.degraded = true ∧
      (m'.targets name).dispatched = (m.targets name).dispatched := by
  cases moved with
  | same unchanged =>
    rw [unchanged]
    exact ⟨degraded, rfl⟩
  | triggered now failing triggeredAt left at_trigger own result =>
    have working := (h.looked name (by rw [at_trigger, ← own]; rfl)).2
    rw [degraded] at working
    cases working
  | thread kept => exact ⟨by rw [kept.degraded, degraded], kept.dispatched⟩

/-- Every interleaving of scans with restart threads, for any targets, callables and
nondecreasing clock. -/
theorem restart_budget {names : List Str} {clock : ℚ} {moves : List Move}
    (reached : run (moveStep names) ({ clock := clock } : Monitor cfg stallDetection) moves =
      some m) (name : Str) :
    Bounded cfg.maxRestarts cfg.restartWindowS (m.targets name).dispatched ∧
      (m.targets name).threads.length ≤ 1 ∧
      (∀ past move later before after, moves = past ++ move :: later →
        run (moveStep names) ({ clock := clock } : Monitor cfg stallDetection) past =
          some before → moveStep names before move = some after →
        (before.targets name).target.degraded = false →
        (after.targets name).target.degraded = true →
          ∃ now failing triggeredAt left,
            before.scan = .triggering now failing triggeredAt left ∧ failing.name = name ∧
            (within (triggeredAt - cfg.restartWindowS) cfg.restartWindowS
              (before.targets name).dispatched).length = cfg.maxRestarts) ∧
      ∀ past later before, moves = past ++ later →
        run (moveStep names) ({ clock := clock } : Monitor cfg stallDetection) past =
          some before → (before.targets name).target.degraded = true →
        (m.targets name).dispatched = (before.targets name).dispatched ∧
          (status (m.targets name).target).1 = .degraded := by
  have inv := run_inv reached
  refine ⟨(inv.sound name).bounded, ?_, ?_, ?_⟩
  · rcases (inv.sound name).single with ⟨idle, _⟩ | ⟨⟨thread, running⟩, _⟩
    · simp [idle]
    · simp [running]
  · intro past move later before after _ toBefore step
    have earlier := run_inv toBefore
    exact degrades_at_trigger earlier ((moveStep_inv earlier step).2 name)
  · intro past later before whole toBefore degraded
    rw [whole, run_append, toBefore] at reached
    obtain ⟨last, stays, same⟩ := run_invariant (moveStep names)
      (I := fun s => Inv s ∧ (s.targets name).target.degraded = true ∧
        (s.targets name).dispatched = (before.targets name).dispatched)
      ⟨run_inv toBefore, degraded, rfl⟩ (by
        intro s move t ⟨invariant, degraded, same⟩ step
        obtain ⟨next, moved⟩ := moveStep_inv invariant step
        obtain ⟨stays, unchanged⟩ := stays_degraded invariant (moved name) degraded
        exact ⟨next, stays, unchanged.trans same⟩) reached
    exact ⟨same, (last.sound name).degraded stays⟩

/-- One restart a minute at most. -/
def oneRestart : SupervisorConfig := { maxRestarts := 1 }

/-- A dead worker. -/
def dead : Readings := ⟨false, false, false, 0⟩

/-- A crash that is restarted, the restart's end, and a second crash at the same moment. -/
def crashTwice : List Move :=
  [.scan dead, .scan dead, .scan dead, .scan dead, .scan dead, .returned ['v'] 0 false,
    .region ['v'] 0, .region ['v'] 0, .scan dead, .scan dead, .scan dead, .scan dead, .scan dead,
    .scan dead]

theorem crashTwice_bounded :
    ∃ m, run (moveStep [['v']])
        ({ clock := 0 } : Monitor oneRestart fun _ => true) crashTwice = some m ∧
      (m.targets ['v']).dispatched = [0] ∧ (m.targets ['v']).target.degraded = true ∧
      Bounded 1 60 (m.targets ['v']).dispatched := by
  have ends : (run (moveStep [['v']])
      ({ clock := 0 } : Monitor oneRestart fun _ => true) crashTwice).map (fun m =>
        ((m.targets ['v']).dispatched, (m.targets ['v']).target.degraded)) = some ([0], true) := by
    decide +kernel
  obtain ⟨m, reached, final⟩ := Option.map_eq_some_iff.mp ends
  obtain ⟨dispatched, degraded⟩ := Prod.ext_iff.mp final
  exact ⟨m, reached, dispatched, degraded, (restart_budget reached ['v']).1⟩

/-- The count that status() reports at a time is the number of restarts dispatched in the
window before it exactly when the oldest restart it has kept is still in that window. -/
theorem reported_count_iff {names : List Str} {clock t : ℚ} {moves : List Move}
    (reached : run (moveStep names) ({ clock := clock } : Monitor cfg stallDetection) moves =
      some m) (later : m.clock ≤ t) (name : Str) :
    (status (m.targets name).target).2 =
        (within (t - cfg.restartWindowS) cfg.restartWindowS (m.targets name).dispatched).length ↔
      ∀ oldest ∈ (m.targets name).target.restarts.head?, t - oldest ≤ cfg.restartWindowS := by
  have inv := run_inv reached
  have sound := (inv.sound name).mono (inv.behind.trans later)
  rw [← sound.pruned_eq]
  exact recent_length_iff

/-- A crash that is restarted, and the restart's end. -/
def crashOnce : List Move :=
  [.scan dead, .scan dead, .scan dead, .scan dead, .scan dead, .returned ['v'] 0 false,
    .region ['v'] 0, .region ['v'] 0]

theorem crashOnce_counted :
    ∃ m, run (moveStep [['v']]) ({ clock := 0 } : Monitor oneRestart fun _ => true) crashOnce =
        some m ∧ (m.targets ['v']).target.degraded = false ∧
      (status (m.targets ['v']).target).2 =
        (within (60 - oneRestart.restartWindowS) oneRestart.restartWindowS
          (m.targets ['v']).dispatched).length := by
  have ends : (run (moveStep [['v']])
      ({ clock := 0 } : Monitor oneRestart fun _ => true) crashOnce).map (fun m =>
        ((m.targets ['v']).target, m.clock)) =
      some ({ restarts := [0] }, 0) := by
    decide +kernel
  obtain ⟨m, reached, final⟩ := Option.map_eq_some_iff.mp ends
  obtain ⟨target, clock⟩ := Prod.ext_iff.mp final
  simp only at target clock
  refine ⟨m, reached, by rw [target], (reported_count_iff (t := 60) reached ?_ ['v']).mpr ?_⟩
  · rw [clock]
    decide +kernel
  · rw [target]
    decide +kernel

theorem aged_restart_counted :
    ∃ m, run (moveStep [['v']]) ({ clock := 0 } : Monitor oneRestart fun _ => true)
        (crashOnce ++ [.tick 61]) = some m ∧ m.clock = 61 ∧
      (m.targets ['v']).target.degraded = false ∧ (status (m.targets ['v']).target).2 = 1 ∧
      (within (61 - oneRestart.restartWindowS) oneRestart.restartWindowS
        (m.targets ['v']).dispatched).length = 0 := by
  have ends : (run (moveStep [['v']]) ({ clock := 0 } : Monitor oneRestart fun _ => true)
      (crashOnce ++ [.tick 61])).map (fun m =>
        ((m.targets ['v']).target, m.clock, (m.targets ['v']).dispatched)) =
      some ({ restarts := [0] }, 61, [0]) := by
    decide +kernel
  obtain ⟨m, reached, final⟩ := Option.map_eq_some_iff.mp ends
  simp only [Prod.mk.injEq] at final
  obtain ⟨target, clock, dispatched⟩ := final
  refine ⟨m, reached, clock, by rw [target], by rw [target]; rfl, ?_⟩
  rw [dispatched]
  decide +kernel

end Runs

end EdgeVoice.RestartBudget
