import EdgeVoice.Models
import EdgeVoice.PolledMailbox

/-! One channel's segment queue over the STT children that read it in turn. `get` holds the
queue's reader lock from before it waits until it has read, so an idle child holds it most
of the time, and a child that dies then leaves it taken for every replacement. A restart
keeps the queue, so it keeps the lock.

Each child has a stop event of its own, in which its bridge waits. `set()` wakes whoever
sleeps there and returns once they have woken, all within the event's lock. A child that dies
asleep never wakes, so the `_signal(old)` of its restart does not return and no replacement
comes. Nothing puts the sentinel on the queue, and what `_handle_segment` does is not looked
at here; nor is a pipeline that is being stopped, which starts no replacement. -/

namespace EdgeVoice.ReaderLock
open Models StepSystem PolledMailbox

/-- Where a child is. It waits for the lock in `acquiring` and for a segment in `polling`,
and `leaving` is between the read and the release. -/
inductive ChildAt
  | notStarted
  | loading
  | testing
  | acquiring
  | polling
  | leaving (got : Option SpeechSegment)
  | handling (segment : SpeechSegment)
  | exited
  | died
deriving DecidableEq

namespace ChildAt

def isAlive : ChildAt → Bool
  | .notStarted => false
  | .exited => false
  | .died => false
  | _ => true

/-- The child is in its get and has the reader lock. -/
def reading : ChildAt → Bool
  | .polling => true
  | .leaving _ => true
  | _ => false

/-- The child's bridge runs: it was started, and the process is there. -/
def bridged : ChildAt → Bool
  | .loading => false
  | child => child.isAlive

end ChildAt

/-- Where a bridge is. It waits in `entering`, `asleep`, `awake` and `checking`, of which the
first and the last are within the event's lock; `telling` is before `worker.stop()`. -/
inductive BridgeAt
  | away
  | entering
  | asleep
  | awake
  | checking
  | telling
  | ended
deriving DecidableEq

namespace BridgeAt

def locking : BridgeAt → Bool
  | .entering => true
  | .checking => true
  | _ => false

/-- Where a bridge keeps `set()` from returning. -/
def blocking (place : BridgeAt) : Bool := place.locking || place = .asleep

end BridgeAt

inductive Holder
  | bridge
  | setter
deriving DecidableEq

/-- An mp.Event: its flag, who has its lock, and how many went to sleep and have not woken. -/
structure StopEvent where
  isSet : Bool := false
  lock : Option Holder := none
  sleepers : ℕ := 0
deriving DecidableEq

/-- A child's bridge, the stop event it waits in, and the worker's own flag, which it sets. -/
structure Bridge where
  place : BridgeAt := .away
  stopEvent : StopEvent := {}
  stopping : Bool := false
deriving DecidableEq

inductive BridgeEvent
  | enter
  | sleep
  | wake
  | reenter
  | check
  | tell
deriving DecidableEq

/-- `stop_event.wait()`, and what `_bridge` does with its answer. A sleeper wakes when its
time is over or when it is notified. -/
def bridgeStep (b : Bridge) : BridgeEvent → Option Bridge
  | .enter =>
    if b.place = .away ∧ b.stopEvent.lock = none then
      some { b with place := .entering, stopEvent.lock := some .bridge }
    else none
  | .sleep =>
    if b.place = .entering ∧ b.stopEvent.isSet = false then
      some { b with
        place := .asleep
        stopEvent := { b.stopEvent with lock := none, sleepers := b.stopEvent.sleepers + 1 } }
    else none
  | .wake =>
    if b.place = .asleep then
      some { b with place := .awake, stopEvent.sleepers := b.stopEvent.sleepers - 1 }
    else none
  | .reenter =>
    if b.place = .awake ∧ b.stopEvent.lock = none then
      some { b with place := .checking, stopEvent.lock := some .bridge }
    else none
  | .check =>
    -- a flag that is set already is seen without a sleep
    if b.place = .checking ∨ b.place = .entering ∧ b.stopEvent.isSet = true then
      some { b with
        place := if b.stopEvent.isSet then .telling else .away
        stopEvent.lock := none }
    else none
  | .tell => if b.place = .telling then some { b with place := .ended, stopping := true } else none

/-- Where `_restart_dict_worker` is: not called, in the `set()` of `_signal`, or past it. -/
inductive RestartAt
  | idle
  | setting
  | joining
deriving DecidableEq

structure SttChannel where
  segmentQueue : Mailbox SpeechSegment := {}
  readerLock : Bool := false
  child : ChildAt := .notStarted
  bridge : Bridge := {}
  restart : RestartAt := .idle
deriving DecidableEq

inductive Event
  | put (segment : SpeechSegment)
  | transfer
  | start
  | loaded
  | test
  | acquire
  | expire
  | take
  | release
  | handled
  | bridge (e : BridgeEvent)
  | die
  | signal
  | signalled
  | swap
deriving DecidableEq

/-- The steps of the child's `run()`, and of the feeder thread behind the queue. -/
def Event.onward : Event → Bool
  | .put _ => false
  | .bridge _ => false
  | .die => false
  | .signal => false
  | .signalled => false
  | .swap => false
  | _ => true

/-- `die` is a crash or a kill. A segment whose handling raises is logged and `handled`. -/
def channelStep (s : SttChannel) : Event → Option SttChannel
  | .put segment => some { s with segmentQueue := s.segmentQueue.send true segment }
  | .transfer => s.segmentQueue.transfer.map fun box => { s with segmentQueue := box }
  | .start => if s.child = .notStarted then some { s with child := .loading } else none
  | .loaded => if s.child = .loading then some { s with child := .testing } else none
  | .test =>
    if s.child = .testing then
      some { s with child := if s.bridge.stopping then .exited else .acquiring }
    else none
  | .acquire =>
    if s.child = .acquiring ∧ s.readerLock = false then
      some { s with child := .polling, readerLock := true }
    else none
  | .expire =>
    if s.child = .acquiring ∧ s.readerLock = true then some { s with child := .testing }
    else if s.child = .polling ∧ s.segmentQueue.ready = [] then
      some { s with child := .leaving none }
    else none
  | .take =>
    if s.child = .polling then
      s.segmentQueue.take.map fun got =>
        { s with segmentQueue := got.2, child := .leaving (some got.1) }
    else none
  | .release =>
    match s.child with
    | .leaving none => some { s with readerLock := false, child := .testing }
    | .leaving (some segment) => some { s with readerLock := false, child := .handling segment }
    | _ => none
  | .handled =>
    match s.child with
    | .handling _ => some { s with child := .testing }
    | _ => none
  | .bridge e =>
    if s.child.bridged then (bridgeStep s.bridge e).map fun bridge => { s with bridge } else none
  -- the event stays as the bridge left it: locked, or with a sleeper that will not wake
  | .die =>
    if s.child.isAlive then some { s with child := .died, bridge.place := .ended } else none
  | .signal =>
    if s.restart = .idle ∧ s.bridge.stopEvent.lock = none then
      some { s with
        restart := .setting
        bridge.stopEvent := { s.bridge.stopEvent with isSet := true, lock := some .setter } }
    else none
  | .signalled =>
    if s.restart = .setting ∧ s.bridge.stopEvent.sleepers = 0 then
      some { s with restart := .joining, bridge.stopEvent.lock := none }
    else none
  -- once `_join` has returned: `_build_stt` with a new event, on the same queue
  | .swap =>
    if s.restart = .joining ∧ s.child.isAlive = false then
      some { segmentQueue := s.segmentQueue, readerLock := s.readerLock }
    else none

variable {s t : SttChannel} {e : Event} {labels : List Event}

/-- What a step can be, with what it leads to. -/
inductive ChannelCase (s : SttChannel) : Event → SttChannel → Prop
  | put (segment : SpeechSegment) :
    ChannelCase s (.put segment) { s with segmentQueue := s.segmentQueue.send true segment }
  | transferred (box : Mailbox SpeechSegment) (moved : s.segmentQueue.transfer = some box) :
    ChannelCase s .transfer { s with segmentQueue := box }
  | started (place : s.child = .notStarted) : ChannelCase s .start { s with child := .loading }
  | loaded (place : s.child = .loading) : ChannelCase s .loaded { s with child := .testing }
  | stopped (place : s.child = .testing) (told : s.bridge.stopping = true) :
    ChannelCase s .test { s with child := .exited }
  | looped (place : s.child = .testing) (untold : s.bridge.stopping = false) :
    ChannelCase s .test { s with child := .acquiring }
  | acquired (place : s.child = .acquiring) (free : s.readerLock = false) :
    ChannelCase s .acquire { s with child := .polling, readerLock := true }
  | gaveUp (place : s.child = .acquiring) (held : s.readerLock = true) :
    ChannelCase s .expire { s with child := .testing }
  | foundNothing (place : s.child = .polling) (empty : s.segmentQueue.ready = []) :
    ChannelCase s .expire { s with child := .leaving none }
  | took (place : s.child = .polling) (segment : SpeechSegment) (box : Mailbox SpeechSegment)
      (got : s.segmentQueue.take = some (segment, box)) :
    ChannelCase s .take { s with segmentQueue := box, child := .leaving (some segment) }
  | leftEmpty (place : s.child = .leaving none) :
    ChannelCase s .release { s with readerLock := false, child := .testing }
  | left (segment : SpeechSegment) (place : s.child = .leaving (some segment)) :
    ChannelCase s .release { s with readerLock := false, child := .handling segment }
  | handled (segment : SpeechSegment) (place : s.child = .handling segment) :
    ChannelCase s .handled { s with child := .testing }
  | bridged (i : BridgeEvent) (bridge : Bridge) (runs : s.child.bridged = true)
      (stepped : bridgeStep s.bridge i = some bridge) :
    ChannelCase s (.bridge i) { s with bridge }
  | died (alive : s.child.isAlive = true) :
    ChannelCase s .die { s with child := .died, bridge.place := .ended }
  | signalling (idle : s.restart = .idle) (free : s.bridge.stopEvent.lock = none) :
    ChannelCase s .signal { s with
      restart := .setting
      bridge.stopEvent := { s.bridge.stopEvent with isSet := true, lock := some .setter } }
  | signalled (setting : s.restart = .setting) (woken : s.bridge.stopEvent.sleepers = 0) :
    ChannelCase s .signalled { s with restart := .joining, bridge.stopEvent.lock := none }
  | swapped (joining : s.restart = .joining) (gone : s.child.isAlive = false) :
    ChannelCase s .swap { segmentQueue := s.segmentQueue, readerLock := s.readerLock }

theorem step_cases (h : channelStep s e = some t) : ChannelCase s e t := by
  cases e with
  | put segment =>
    cases h
    exact .put segment
  | transfer =>
    obtain ⟨box, moved, rfl⟩ := Option.map_eq_some_iff.mp h
    exact .transferred box moved
  | start =>
    simp only [channelStep, Option.ite_none_right_eq_some, Option.some.injEq] at h
    obtain ⟨place, rfl⟩ := h
    exact .started place
  | loaded =>
    simp only [channelStep, Option.ite_none_right_eq_some, Option.some.injEq] at h
    obtain ⟨place, rfl⟩ := h
    exact .loaded place
  | test =>
    simp only [channelStep, Option.ite_none_right_eq_some, Option.some.injEq] at h
    obtain ⟨place, rfl⟩ := h
    cases told : s.bridge.stopping with
    | true => exact .stopped place told
    | false => exact .looped place told
  | acquire =>
    simp only [channelStep, Option.ite_none_right_eq_some, Option.some.injEq] at h
    obtain ⟨⟨place, free⟩, rfl⟩ := h
    exact .acquired place free
  | expire =>
    simp only [channelStep] at h
    split_ifs at h with waiting polled
    · cases h
      exact .gaveUp waiting.1 waiting.2
    · cases h
      exact .foundNothing polled.1 polled.2
  | take =>
    simp only [channelStep, Option.ite_none_right_eq_some, Option.map_eq_some_iff] at h
    obtain ⟨place, got, taken, rfl⟩ := h
    exact .took place got.1 got.2 taken
  | release =>
    simp only [channelStep] at h
    split at h <;> cases h <;> rename_i place
    · exact .leftEmpty place
    · exact .left _ place
  | handled =>
    simp only [channelStep] at h
    split at h <;> cases h
    rename_i place
    exact .handled _ place
  | bridge i =>
    simp only [channelStep, Option.ite_none_right_eq_some, Option.map_eq_some_iff] at h
    obtain ⟨runs, bridge, stepped, rfl⟩ := h
    exact .bridged i bridge runs stepped
  | die =>
    simp only [channelStep, Option.ite_none_right_eq_some, Option.some.injEq] at h
    obtain ⟨alive, rfl⟩ := h
    exact .died alive
  | signal =>
    simp only [channelStep, Option.ite_none_right_eq_some, Option.some.injEq] at h
    obtain ⟨⟨idle, free⟩, rfl⟩ := h
    exact .signalling idle free
  | signalled =>
    simp only [channelStep, Option.ite_none_right_eq_some, Option.some.injEq] at h
    obtain ⟨⟨setting, woken⟩, rfl⟩ := h
    exact .signalled setting woken
  | swap =>
    simp only [channelStep, Option.ite_none_right_eq_some, Option.some.injEq] at h
    obtain ⟨⟨joining, gone⟩, rfl⟩ := h
    exact .swapped joining gone

section Lock

/-- The lock is held exactly by a child in its get. -/
def SttChannel.Sound (s : SttChannel) : Prop := s.readerLock = s.child.reading

/-- The lock is held by a child that is gone. -/
def SttChannel.Orphaned (s : SttChannel) : Prop :=
  s.readerLock = true ∧ s.child.reading = false

/-- No child dies while it reads. -/
def DiesOutsideGet (s : SttChannel) (e : Event) : Prop := e = .die → s.child.reading = false

instance (s : SttChannel) (e : Event) : Decidable (DiesOutsideGet s e) := by
  unfold DiesOutsideGet
  infer_instance

/-- What a step may do to the lock. -/
theorem step_lock (h : channelStep s e = some t) :
    (t.readerLock = s.readerLock ∧ t.child.reading = s.child.reading) ∨
    (s.readerLock = false ∧ t.readerLock = true ∧ t.child.reading = true) ∨
    (s.child.reading = true ∧ t.readerLock = false ∧ t.child.reading = false) ∨
    (e = .die ∧ t.readerLock = s.readerLock ∧ t.child.reading = false) := by
  cases step_cases h with
  | put | transferred | bridged | signalling | signalled => exact Or.inl ⟨rfl, rfl⟩
  | started place | loaded place | stopped place | looped place | gaveUp place
  | foundNothing place | took place | handled _ place =>
    exact Or.inl ⟨rfl, by rw [place]; rfl⟩
  | acquired place free => exact Or.inr (Or.inl ⟨free, rfl, rfl⟩)
  | leftEmpty place | left _ place =>
    exact Or.inr (Or.inr (Or.inl ⟨by rw [place]; rfl, rfl, rfl⟩))
  | died => exact Or.inr (Or.inr (Or.inr ⟨rfl, rfl, rfl⟩))
  | swapped joining gone =>
    refine Or.inl ⟨rfl, ?_⟩
    cases place : s.child <;> simp_all [ChildAt.isAlive, ChildAt.reading]

theorem die_step (h : channelStep s .die = some t) :
    t.readerLock = s.readerLock ∧ t.child.reading = false := by
  cases step_cases h with
  | died => exact ⟨rfl, rfl⟩

theorem sound_step (sound : s.Sound) (outside : DiesOutsideGet s e)
    (h : channelStep s e = some t) : t.Sound := by
  unfold SttChannel.Sound at sound ⊢
  rcases step_lock h with ⟨lock, reads⟩ | ⟨_, lock, reads⟩ | ⟨_, lock, reads⟩ | ⟨dies, lock, gone⟩
  · rw [lock, reads, sound]
  · rw [lock, reads]
  · rw [lock, reads]
  · rw [lock, gone, sound, outside dies]

theorem orphaned_step (orphaned : s.Orphaned) (h : channelStep s e = some t) : t.Orphaned := by
  obtain ⟨taken, absent⟩ := orphaned
  rcases step_lock h with ⟨lock, reads⟩ | ⟨free, _⟩ | ⟨reads, _⟩ | ⟨_, lock, gone⟩
  · exact ⟨lock.trans taken, reads.trans absent⟩
  · rw [taken] at free
    cases free
  · rw [absent] at reads
    cases reads
  · exact ⟨lock.trans taken, gone⟩

/-- The step that orphans the lock. -/
theorem orphans (sound : s.Sound) (inside : ¬DiesOutsideGet s e) (h : channelStep s e = some t) :
    t.Orphaned := by
  simp only [DiesOutsideGet, Classical.not_imp, Bool.not_eq_false] at inside
  obtain ⟨rfl, reads⟩ := inside
  obtain ⟨lock, gone⟩ := die_step h
  exact ⟨by rw [lock, sound, reads], gone⟩

theorem sound_of_outside (reached : run channelStep {} labels = some s)
    (outside : Along channelStep DiesOutsideGet {} labels) : s.Sound :=
  run_invariant_along channelStep (I := SttChannel.Sound) (rfl : SttChannel.Sound {})
    (fun _ _ _ sound ok h => sound_step sound ok h) outside reached

theorem orphaned_of_inside (reached : run channelStep {} labels = some s)
    (inside : ¬Along channelStep DiesOutsideGet {} labels) : s.Orphaned := by
  obtain ⟨past, e, later, m, m', _, outside, before, bad, dies, after⟩ :=
    run_breaks channelStep inside reached
  exact run_invariant channelStep (orphans (sound_of_outside before outside) bad dies)
    (fun _ _ _ orphaned h => orphaned_step orphaned h) after

end Lock

section Queue

def SttChannel.backlog (s : SttChannel) : List SpeechSegment :=
  s.segmentQueue.taken ++ s.segmentQueue.unread

/-- A step touches the queue in a put, a transfer or a get that returns. -/
theorem step_queue (h : channelStep s e = some t) :
    t.segmentQueue = s.segmentQueue ∨
    (∃ segment, e = .put segment ∧ t.segmentQueue = s.segmentQueue.send true segment) ∨
    (e = .transfer ∧ s.segmentQueue.transfer = some t.segmentQueue) ∨
    (e = .take ∧ s.child = .polling ∧
      ∃ segment, s.segmentQueue.take = some (segment, t.segmentQueue)) := by
  cases step_cases h with
  | put segment => exact Or.inr (Or.inl ⟨segment, rfl, rfl⟩)
  | transferred box moved => exact Or.inr (Or.inr (Or.inl ⟨rfl, moved⟩))
  | took place segment box got => exact Or.inr (Or.inr (Or.inr ⟨rfl, place, segment, got⟩))
  | _ => exact Or.inl rfl

/-- Nothing is taken past an orphaned lock. -/
theorem orphaned_taken (orphaned : s.Orphaned) (h : channelStep s e = some t) :
    t.segmentQueue.taken = s.segmentQueue.taken := by
  rcases step_queue h with same | ⟨segment, rfl, put⟩ | ⟨_, moved⟩ | ⟨_, place, _⟩
  · rw [same]
  · rw [put]
    rfl
  · exact (Mailbox.transfer_unread moved).2.2
  · have absent := orphaned.2
    rw [place] at absent
    cases absent

theorem onward_backlog (own : e.onward = true) (h : channelStep s e = some t) :
    t.backlog = s.backlog := by
  unfold SttChannel.backlog
  rcases step_queue h with same | ⟨segment, rfl, put⟩ | ⟨_, moved⟩ | ⟨_, _, segment, got⟩
  · rw [same]
  · cases own
  · obtain ⟨unread, _, taken⟩ := Mailbox.transfer_unread moved
    rw [unread, taken]
  · obtain ⟨unread, _, taken, _⟩ := Mailbox.take_unread got
    rw [unread, taken, List.append_assoc, List.singleton_append]

end Queue

section Signal

variable {b b' : Bridge} {i : BridgeEvent}

/-- The event's lock is with the bridge while that is in a locking place, and the one that
sleeps in the event is the bridge. -/
structure Bridge.Tallies (b : Bridge) : Prop where
  locking : b.stopEvent.lock = some .bridge ↔ b.place.locking = true
  asleep : b.stopEvent.sleepers = if b.place = .asleep then 1 else 0

/-- What a step of the bridge may do: it takes the free lock, gives back its own, or leaves
the lock as it is. -/
theorem bridgeStep_tallies (tallies : b.Tallies) (h : bridgeStep b i = some b') :
    b'.Tallies ∧ (b'.stopEvent.lock = some .setter ↔ b.stopEvent.lock = some .setter) := by
  obtain ⟨locking, asleep⟩ := tallies
  cases i with
  | enter | reenter =>
    simp only [bridgeStep, Option.ite_none_right_eq_some, Option.some.injEq] at h
    obtain ⟨⟨place, free⟩, rfl⟩ := h
    simp only [place] at asleep
    exact ⟨⟨by simp [BridgeAt.locking], by simpa using asleep⟩, by simp [free]⟩
  | sleep =>
    simp only [bridgeStep, Option.ite_none_right_eq_some, Option.some.injEq] at h
    obtain ⟨⟨place, _⟩, rfl⟩ := h
    have own : b.stopEvent.lock = some .bridge := locking.mpr (by rw [place]; rfl)
    simp only [place] at asleep
    exact ⟨⟨by simp [BridgeAt.locking], by simpa using asleep⟩, by simp [own]⟩
  | wake =>
    simp only [bridgeStep, Option.ite_none_right_eq_some, Option.some.injEq] at h
    obtain ⟨place, rfl⟩ := h
    simp only [place] at locking asleep
    exact ⟨⟨by simpa [BridgeAt.locking] using locking, by simp [asleep]⟩, Iff.rfl⟩
  | check =>
    simp only [bridgeStep, Option.ite_none_right_eq_some, Option.some.injEq] at h
    obtain ⟨place, rfl⟩ := h
    have own : b.stopEvent.lock = some .bridge := by
      rcases place with place | ⟨place, _⟩ <;> exact locking.mpr (by rw [place]; rfl)
    have nobody : b.stopEvent.sleepers = 0 := by
      rcases place with place | ⟨place, _⟩ <;> simpa [place] using asleep
    refine ⟨⟨?_, ?_⟩, by simp [own]⟩
    · cases b.stopEvent.isSet <;> simp [BridgeAt.locking]
    · cases b.stopEvent.isSet <;> simp [nobody]
  | tell =>
    simp only [bridgeStep, Option.ite_none_right_eq_some, Option.some.injEq] at h
    obtain ⟨place, rfl⟩ := h
    simp only [place] at locking asleep
    exact ⟨⟨by simpa [BridgeAt.locking] using locking, by simpa using asleep⟩, Iff.rfl⟩

/-- `set()` has returned, or whoever keeps it from returning is there to go on. -/
def SttChannel.Signallable (s : SttChannel) : Prop :=
  s.restart = .joining ∨
    s.bridge.Tallies ∧ (s.bridge.stopEvent.lock = some .setter ↔ s.restart = .setting)

/-- `set()` never returns: its child is gone, and was within the event's lock or asleep. -/
def SttChannel.Hung (s : SttChannel) : Prop :=
  s.child = .died ∧
    (s.restart = .idle ∧ s.bridge.stopEvent.lock = some .bridge ∨
      s.restart ≠ .joining ∧ s.bridge.stopEvent.sleepers ≠ 0)

/-- No child dies where its bridge keeps a `set()` from returning that has not yet. -/
def DiesOutsideWait (s : SttChannel) (e : Event) : Prop :=
  e = .die → s.restart = .joining ∨ s.bridge.place.blocking = false

instance (s : SttChannel) (e : Event) : Decidable (DiesOutsideWait s e) := by
  unfold DiesOutsideWait
  infer_instance

/-- What a step may do to the bridge, its event and the restart. -/
theorem step_signal (h : channelStep s e = some t) :
    (t.bridge = s.bridge ∧ t.restart = s.restart ∧ (t.child = .died ↔ s.child = .died)) ∨
    (∃ i, e = .bridge i ∧ s.child.bridged = true ∧ bridgeStep s.bridge i = some t.bridge ∧
      t.restart = s.restart ∧ t.child = s.child) ∨
    (e = .die ∧ s.child.isAlive = true ∧
      t = { s with child := .died, bridge.place := .ended }) ∨
    (e = .signal ∧ s.restart = .idle ∧ s.bridge.stopEvent.lock = none ∧
      t = { s with
        restart := .setting
        bridge.stopEvent := { s.bridge.stopEvent with isSet := true, lock := some .setter } }) ∨
    (e = .signalled ∧ s.restart = .setting ∧ s.bridge.stopEvent.sleepers = 0 ∧
      t = { s with restart := .joining, bridge.stopEvent.lock := none }) ∨
    (e = .swap ∧ s.restart = .joining ∧
      t = { segmentQueue := s.segmentQueue, readerLock := s.readerLock }) := by
  cases step_cases h with
  | put | transferred => exact Or.inl ⟨rfl, rfl, Iff.rfl⟩
  | started place | loaded place | stopped place | looped place | acquired place
  | gaveUp place | foundNothing place | took place | leftEmpty place | left _ place
  | handled _ place => exact Or.inl ⟨rfl, rfl, by simp [place]⟩
  | bridged i bridge runs stepped => exact Or.inr (Or.inl ⟨i, rfl, runs, stepped, rfl, rfl⟩)
  | died alive => exact Or.inr (Or.inr (Or.inl ⟨rfl, alive, rfl⟩))
  | signalling idle free => exact Or.inr (Or.inr (Or.inr (Or.inl ⟨rfl, idle, free, rfl⟩)))
  | signalled setting woken =>
    exact Or.inr (Or.inr (Or.inr (Or.inr (Or.inl ⟨rfl, setting, woken, rfl⟩))))
  | swapped joining => exact Or.inr (Or.inr (Or.inr (Or.inr (Or.inr ⟨rfl, joining, rfl⟩))))

theorem signallable_step (able : s.Signallable) (outside : DiesOutsideWait s e)
    (h : channelStep s e = some t) : t.Signallable := by
  unfold SttChannel.Signallable at able ⊢
  rcases step_signal h with ⟨bridge, restart, _⟩ | ⟨i, _, _, stepped, restart, _⟩ |
    ⟨dies, _, rfl⟩ | ⟨_, idle, free, rfl⟩ | ⟨_, _, _, rfl⟩ | ⟨_, _, rfl⟩
  · rwa [bridge, restart]
  · rw [restart]
    refine able.imp_right fun ⟨tallies, setter⟩ => ?_
    obtain ⟨still, lock⟩ := bridgeStep_tallies tallies stepped
    exact ⟨still, lock.trans setter⟩
  · rcases outside dies with joining | free
    · exact Or.inl joining
    · refine able.imp_right fun ⟨⟨locking, asleep⟩, setter⟩ => ?_
      simp only [BridgeAt.blocking, Bool.or_eq_false_iff, decide_eq_false_iff_not] at free
      rw [free.1] at locking
      rw [if_neg free.2] at asleep
      exact ⟨⟨by simpa [BridgeAt.locking] using locking, by simp [asleep]⟩, setter⟩
  · rcases able with joining | ⟨⟨locking, asleep⟩, _⟩
    · rw [idle] at joining
      cases joining
    · rw [free] at locking
      exact Or.inr ⟨⟨by simpa using locking, asleep⟩, by simp⟩
  · exact Or.inl rfl
  · exact Or.inr ⟨⟨by simp [BridgeAt.locking], by simp⟩, by simp⟩

/-- A bridge goes with its child. -/
def SttChannel.Gone (s : SttChannel) : Prop := s.child = .died → s.bridge.place = .ended

theorem gone_step (gone : s.Gone) (h : channelStep s e = some t) : t.Gone := by
  unfold SttChannel.Gone at gone ⊢
  rcases step_signal h with ⟨bridge, _, child⟩ | ⟨i, _, runs, _, _, child⟩ |
    ⟨_, _, rfl⟩ | ⟨_, _, _, rfl⟩ | ⟨_, _, _, rfl⟩ | ⟨_, _, rfl⟩
  · rw [bridge, child]
    exact gone
  · intro dead
    rw [child] at dead
    simp [dead, ChildAt.bridged, ChildAt.isAlive] at runs
  · exact fun _ => rfl
  · exact gone
  · exact gone
  · simp

theorem hung_step (hung : s.Hung) (h : channelStep s e = some t) : t.Hung := by
  obtain ⟨dead, stuck⟩ := hung
  rcases step_signal h with ⟨bridge, restart, child⟩ | ⟨i, _, runs, _, _, _⟩ |
    ⟨_, alive, _⟩ | ⟨_, idle, free, rfl⟩ | ⟨_, setting, woken, _⟩ | ⟨_, joining, _⟩
  · exact ⟨child.mpr dead, by rwa [bridge, restart]⟩
  · simp [dead, ChildAt.bridged, ChildAt.isAlive] at runs
  · simp [dead, ChildAt.isAlive] at alive
  · rcases stuck with ⟨_, locked⟩ | ⟨_, asleep⟩
    · rw [free] at locked
      cases locked
    · exact ⟨dead, Or.inr ⟨by simp, asleep⟩⟩
  · rcases stuck with ⟨idle, _⟩ | ⟨_, asleep⟩
    · rw [setting] at idle
      cases idle
    · exact absurd woken asleep
  · rcases stuck with ⟨idle, _⟩ | ⟨waits, _⟩
    · rw [joining] at idle
      cases idle
    · exact absurd joining waits

/-- The step that hangs the restart. -/
theorem hangs (able : s.Signallable) (inside : ¬DiesOutsideWait s e)
    (h : channelStep s e = some t) : t.Hung := by
  simp only [DiesOutsideWait, Classical.not_imp, not_or, Bool.not_eq_false] at inside
  obtain ⟨rfl, unsignalled, blocking⟩ := inside
  cases step_cases h
  obtain ⟨⟨locking, asleep⟩, setter⟩ := able.resolve_left unsignalled
  refine ⟨rfl, ?_⟩
  simp only [BridgeAt.blocking, Bool.or_eq_true, decide_eq_true_eq] at blocking
  rcases blocking with locks | sleeps
  · left
    have own := locking.mpr locks
    refine ⟨?_, own⟩
    cases place : s.restart with
    | idle => rfl
    | setting =>
      have other := setter.mpr place
      rw [own] at other
      cases other
    | joining => exact absurd place unsignalled
  · right
    exact ⟨unsignalled, by simp [asleep, sleeps]⟩

/-- Some run goes on to the swap of the restart. -/
def SttChannel.CanReplace (s : SttChannel) : Prop :=
  ∃ steps t, run channelStep s (steps ++ [.swap]) = some t

theorem not_canReplace_of_hung (hung : s.Hung) : ¬s.CanReplace := by
  rintro ⟨steps, t, ran⟩
  obtain ⟨m, before, swapped⟩ := (run_concat channelStep s t steps .swap).mp ran
  obtain ⟨_, stuck⟩ : m.Hung :=
    run_invariant channelStep hung (fun _ _ _ hung h => hung_step hung h) before
  cases step_cases swapped with
  | swapped joining => simp [joining] at stuck

theorem canReplace_of_signallable (able : s.Signallable) (gone : s.Gone) (dead : s.child = .died) :
    s.CanReplace := by
  have absent : s.child.isAlive = false := by rw [dead]; rfl
  rcases able with joining | ⟨⟨locking, asleep⟩, setter⟩
  · exact ⟨[], _, by simp [channelStep, joining, absent]; rfl⟩
  · rw [gone dead] at locking asleep
    have free : s.bridge.stopEvent.lock ≠ some .bridge := by simp [locking, BridgeAt.locking]
    have nobody : s.bridge.stopEvent.sleepers = 0 := by simpa using asleep
    cases place : s.restart with
    | idle =>
      have unlocked : s.bridge.stopEvent.lock = none := by
        rcases held : s.bridge.stopEvent.lock with _ | _ | _
        · rfl
        · exact absurd held free
        · exact absurd (setter.mp held) (by simp [place])
      exact ⟨[.signal, .signalled], _, by
        simp [channelStep, place, unlocked, nobody, absent]; rfl⟩
    | setting => exact ⟨[.signalled], _, by simp [channelStep, place, nobody, absent]; rfl⟩
    | joining => exact ⟨[], _, by simp [channelStep, place, absent]; rfl⟩

/-- The replacement of a dead child comes exactly if no child died where its bridge kept
`set()` from returning. -/
theorem canReplace_iff (reached : run channelStep {} labels = some s) (dead : s.child = .died) :
    s.CanReplace ↔ Along channelStep DiesOutsideWait {} labels := by
  have initial : ({} : SttChannel).Signallable :=
    Or.inr ⟨⟨by simp [BridgeAt.locking], by simp⟩, by simp⟩
  have kept {m : SttChannel} {past : List Event}
      (outside : Along channelStep DiesOutsideWait {} past)
      (before : run channelStep {} past = some m) : m.Signallable :=
    run_invariant_along channelStep initial (fun _ _ _ able ok h => signallable_step able ok h)
      outside before
  constructor
  · intro can
    by_contra inside
    obtain ⟨past, e, later, m, m', _, outside, before, bad, dies, after⟩ :=
      run_breaks channelStep inside reached
    exact not_canReplace_of_hung (run_invariant channelStep (hangs (kept outside before) bad dies)
      (fun _ _ _ hung h => hung_step hung h) after) can
  · intro outside
    exact canReplace_of_signallable (kept outside reached)
      (run_invariant channelStep (I := SttChannel.Gone) (fun dead => by cases dead)
        (fun _ _ _ gone h => gone_step gone h) reached) dead

end Signal

section Replacement

/-- The child in place has not died, and its worker was not told to stop; a replacement is
just that. -/
def SttChannel.Serving (s : SttChannel) : Prop :=
  s.bridge.stopping = false ∧ s.child ≠ .exited ∧ s.child ≠ .died

/-- Some steps of the child in place, and of the feeder, dequeue all that is queued. -/
def SttChannel.CanDequeue (s : SttChannel) : Prop :=
  ∃ steps t, (∀ e ∈ steps, e.onward = true) ∧ run channelStep s steps = some t ∧
    t.segmentQueue.taken = s.segmentQueue.taken ++ s.segmentQueue.unread

theorem swap_serving (h : channelStep s .swap = some t) : t.Serving := by
  cases step_cases h with
  | swapped => exact ⟨rfl, by simp, by simp⟩

theorem serving_step (serving : s.Serving) (own : e.onward = true)
    (h : channelStep s e = some t) : t.Serving := by
  obtain ⟨untold, present, lives⟩ := serving
  cases step_cases h with
  | put | bridged | died | signalling | signalled | swapped => cases own
  | transferred => exact ⟨untold, present, lives⟩
  | stopped _ told =>
    rw [told] at untold
    cases untold
  | _ => exact ⟨untold, by simp, by simp⟩

/-- How far a child is from its next read. -/
def ChildAt.distance : ChildAt → ℕ
  | .notStarted => 6
  | .loading => 5
  | .leaving _ => 4
  | .handling _ => 3
  | .testing => 2
  | .acquiring => 1
  | _ => 0

def SttChannel.distance (s : SttChannel) : ℕ :=
  5 * s.segmentQueue.unread.length + s.segmentQueue.feeder.length + s.child.distance

theorem advance (serving : s.Serving) (sound : s.Sound) (waiting : s.segmentQueue.unread ≠ []) :
    ∃ e t, e.onward = true ∧ channelStep s e = some t ∧ t.distance < s.distance := by
  obtain ⟨stays, present, lives⟩ := serving
  unfold SttChannel.Sound at sound
  cases place : s.child with
  | notStarted =>
    refine ⟨.start, { s with child := .loading }, rfl, by simp [channelStep, place], ?_⟩
    simp [SttChannel.distance, ChildAt.distance, place]
  | loading =>
    refine ⟨.loaded, { s with child := .testing }, rfl, by simp [channelStep, place], ?_⟩
    simp [SttChannel.distance, ChildAt.distance, place]
  | testing =>
    refine ⟨.test, { s with child := .acquiring }, rfl, by simp [channelStep, place, stays], ?_⟩
    simp [SttChannel.distance, ChildAt.distance, place]
  | acquiring =>
    have free : s.readerLock = false := by rw [sound, place]; rfl
    refine ⟨.acquire, { s with child := .polling, readerLock := true }, rfl,
      by simp [channelStep, place, free], ?_⟩
    simp [SttChannel.distance, ChildAt.distance, place]
  | polling =>
    cases ready : s.segmentQueue.ready with
    | nil =>
      -- what is queued is still with the feeder
      cases feeder : s.segmentQueue.feeder with
      | nil => exact absurd (by simp [Mailbox.unread, ready, feeder]) waiting
      | cons segment rest =>
        refine ⟨.transfer, _, rfl, by simp [channelStep, Mailbox.transfer, feeder]; rfl, ?_⟩
        simp [SttChannel.distance, Mailbox.unread, ready, feeder]
    | cons segment rest =>
      refine ⟨.take, _, rfl, by simp [channelStep, Mailbox.take, place, ready]; rfl, ?_⟩
      simp [SttChannel.distance, ChildAt.distance, Mailbox.unread, place, ready]
      omega
  | leaving got =>
    cases got with
    | none =>
      refine ⟨.release, { s with readerLock := false, child := .testing }, rfl,
        by simp [channelStep, place], ?_⟩
      simp [SttChannel.distance, ChildAt.distance, place]
    | some segment =>
      refine ⟨.release, { s with readerLock := false, child := .handling segment }, rfl,
        by simp [channelStep, place], ?_⟩
      simp [SttChannel.distance, ChildAt.distance, place]
  | handling segment =>
    refine ⟨.handled, { s with child := .testing }, rfl, by simp [channelStep, place], ?_⟩
    simp [SttChannel.distance, ChildAt.distance, place]
  | exited => exact absurd place present
  | died => exact absurd place lives

theorem canDequeue_of_sound (serving : s.Serving) (sound : s.Sound) : s.CanDequeue := by
  have closer (m : SttChannel) (h : m.Serving ∧ m.Sound ∧ m.backlog = s.backlog)
      (waiting : ¬m.segmentQueue.unread = []) :
      ∃ e t, e.onward = true ∧ channelStep m e = some t ∧
        (t.Serving ∧ t.Sound ∧ t.backlog = s.backlog) ∧ t.distance < m.distance := by
    obtain ⟨serving, sound, backlog⟩ := h
    obtain ⟨e, t, own, step, closer⟩ := advance serving sound waiting
    have outside : DiesOutsideGet m e := by
      rintro rfl
      cases own
    exact ⟨e, t, own, step, ⟨serving_step serving own step, sound_step sound outside step,
      (onward_backlog own step).trans backlog⟩, closer⟩
  obtain ⟨steps, t, own, ran, ⟨_, _, backlog⟩, empty⟩ :=
    run_descends channelStep SttChannel.distance closer ⟨serving, sound, rfl⟩
  refine ⟨steps, t, own, ran, ?_⟩
  simpa [SttChannel.backlog, empty] using backlog

theorem orphaned_dequeues_nothing (orphaned : s.Orphaned) (can : s.CanDequeue) :
    s.segmentQueue.unread = [] := by
  obtain ⟨steps, t, _, ran, all⟩ := can
  have stuck : t.Orphaned ∧ t.segmentQueue.taken = s.segmentQueue.taken :=
    run_invariant channelStep
      (I := fun m => m.Orphaned ∧ m.segmentQueue.taken = s.segmentQueue.taken) ⟨orphaned, rfl⟩
      (fun _ _ _ before h =>
        ⟨orphaned_step before.1 h, (orphaned_taken before.1 h).trans before.2⟩) ran
  rw [stuck.2] at all
  exact List.self_eq_append_right.mp all

/-- A child in place can dequeue all that is queued exactly if nothing is, or if no child
before it died between taking the reader lock and releasing it. -/
theorem canDequeue_iff (reached : run channelStep {} labels = some s) (serving : s.Serving) :
    s.CanDequeue ↔
      s.segmentQueue.unread = [] ∨ Along channelStep DiesOutsideGet {} labels := by
  constructor
  · intro can
    by_cases outside : Along channelStep DiesOutsideGet {} labels
    · exact Or.inr outside
    · exact Or.inl (orphaned_dequeues_nothing (orphaned_of_inside reached outside) can)
  · rintro (empty | outside)
    · exact ⟨[], s, by simp, rfl, by simp [empty]⟩
    · exact canDequeue_of_sound serving (sound_of_outside reached outside)

/-- A replacement can dequeue all that is queued exactly if nothing is, or if no child before
it died between taking the reader lock and releasing it; and the restart of a dead child gets
to its swap exactly if no child died where its bridge kept `set()` from returning. -/
theorem replacement_dequeues_iff (reached : run channelStep {} labels = some s) :
    (s.Serving → (s.CanDequeue ↔
      s.segmentQueue.unread = [] ∨ Along channelStep DiesOutsideGet {} labels)) ∧
    (s.child = .died → (s.CanReplace ↔ Along channelStep DiesOutsideWait {} labels)) :=
  ⟨canDequeue_iff reached, canReplace_iff reached⟩

def segmentNamed (segmentId : List Char) : SpeechSegment where
  channelId := ['r', 'x']
  start := 0
  endTs := 1
  audio := [0, 0]
  segmentId := segmentId

/-- A bridge wakes up in its wait and goes on to tell the worker. -/
def told : List Event :=
  [.bridge .wake, .signalled, .bridge .reenter, .bridge .check, .bridge .tell]

/-- A child that decodes for too long, with another segment queued, is told to stop and is
killed by `_join`. -/
def killedDecoding : List Event :=
  [.put (segmentNamed ['a']), .put (segmentNamed ['b']), .transfer, .start, .loaded, .test,
    .acquire, .take, .release, .bridge .enter, .bridge .sleep, .signal] ++ told ++ [.die]

theorem killedDecoding_dequeues :
    (∃ s, run channelStep {} killedDecoding = some s ∧ s.CanReplace) ∧
      ∃ s, run channelStep {} (killedDecoding ++ [.swap]) = some s ∧
        s.segmentQueue.unread = [segmentNamed ['b']] ∧ s.CanDequeue := by
  have ran : ∃ s ∈ run channelStep {} (killedDecoding ++ [.swap]),
      s.segmentQueue.unread = [segmentNamed ['b']] := by decide +kernel
  obtain ⟨s, reached, queued⟩ := ran
  obtain ⟨m, before, swapped⟩ := (run_concat channelStep {} s killedDecoding .swap).mp reached
  have dead : ∀ m ∈ run channelStep {} killedDecoding, m.child = .died := by decide +kernel
  exact ⟨⟨m, before, ((replacement_dequeues_iff before).2 (dead m before)).mpr
    (by decide +kernel)⟩, s, reached, queued,
    ((replacement_dequeues_iff reached).1 (swap_serving swapped)).mpr
      (Or.inr (by decide +kernel))⟩

/-- One wait of the bridge that times out. -/
def timedOut : List Event :=
  [.bridge .enter, .bridge .sleep, .bridge .wake, .bridge .reenter, .bridge .check]

/-- An idle child waits in its get, so it has the lock. A segment is put and the child is
killed before it has read it, while its bridge is between two waits. -/
def killedIdle : List Event :=
  [.start, .loaded, .test, .acquire, .put (segmentNamed ['a'])] ++ timedOut ++
    [.die, .signal, .signalled]

theorem idle_death_blocks_replacement :
    ¬∀ labels s, run channelStep {} (labels ++ [.swap]) = some s → s.CanDequeue := by
  intro claimed
  have ran : ∃ s ∈ run channelStep {} (killedIdle ++ [.swap]),
      s.segmentQueue.unread = [segmentNamed ['a']] ∧ s.readerLock = true ∧
        s.child.reading = false := by decide +kernel
  obtain ⟨s, reached, queued, lock, absent⟩ := ran
  have empty := orphaned_dequeues_nothing ⟨lock, absent⟩ (claimed killedIdle s reached)
  rw [queued] at empty
  cases empty

/-- The same child, killed while its bridge sleeps: the restart does not get past `set()`. -/
def killedAsleep : List Event :=
  [.start, .loaded, .test, .acquire, .put (segmentNamed ['a']), .bridge .enter, .bridge .sleep,
    .die, .signal]

example : ∃ s, run channelStep {} killedAsleep = some s ∧ ¬s.CanReplace := by
  have hung : ∃ s ∈ run channelStep {} killedAsleep,
      s.child = .died ∧ s.restart = .setting ∧ s.bridge.stopEvent.sleepers = 1 := by
    decide +kernel
  obtain ⟨s, reached, dead, setting, asleep⟩ := hung
  exact ⟨s, reached, not_canReplace_of_hung ⟨dead, Or.inr ⟨by simp [setting], by simp [asleep]⟩⟩⟩

end Replacement

end EdgeVoice.ReaderLock
