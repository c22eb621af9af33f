import EdgeVoice.Models
import EdgeVoice.PolledMailbox

/-! One channel's transcripts on their way from its STT child to the hub, in process
mode: the child's puts and the feeder behind them, the receiver loop, the restarts of
the child, each with a new handle and a new queue, and stop(). Any of them may step
at any time. A child that exits first flushes its feeder; one that is killed, or
crashes, loses what is in it. Publishing does not raise. -/

namespace EdgeVoice.TranscriptReceiver
open PythonText Models StepSystem PolledMailbox

structure SttResult where
  event : TranscriptEvent
  sttLatencyS : Option ℚ
deriving DecidableEq

inductive ChildAt
  | notStarted
  | starting
  | running
  | exited
  | killed
deriving DecidableEq

/-- An STTProcessHandle: its child and its `transcript_queue`. -/
structure Handle where
  child : ChildAt := .notStarted
  queue : Mailbox SttResult := {}
deriving DecidableEq

/-- Where `_stt_receiver_loop` stands; a handle is known by its number. -/
inductive ReceiverAt
  | testing
  | looking
  | getting (handle : ℕ)
  | publishing (handle : ℕ) (result : SttResult)
  | returned
deriving DecidableEq

/-- The handle the receiver holds on to. -/
def ReceiverAt.on : ReceiverAt → Option ℕ
  | .getting handle => some handle
  | .publishing handle _ => some handle
  | _ => none

/-- The result the receiver has in hand. -/
def ReceiverAt.hand : ReceiverAt → List SttResult
  | .publishing _ result => [result]
  | _ => []

/-- The handles in the order of the restarts, and which one the dictionary holds. -/
structure Channel where
  handles : ℕ → Handle := fun _ => {}
  current : ℕ := 0
  receiver : ReceiverAt := .testing
  running : Bool := true
  receiversStop : Bool := false
  published : List SttResult := []
  lastLatencyS : Option ℚ := none

inductive ChannelEvent
  | put (handle : ℕ) (result : SttResult)
  | transfer (handle : ℕ)
  | exit (handle : ℕ)
  | kill (handle : ℕ)
  | swap
  | check
  | start
  | stopCalled
  | stopReceivers
  | test
  | look
  | take
  | expire
  | broken
  | publish
deriving DecidableEq

def Channel.set (s : Channel) (handle : ℕ) (h : Handle) : Channel :=
  { s with handles := Function.update s.handles handle h }

/-- The child neither runs nor is about to. -/
def Dead (h : Handle) : Prop := h.child ≠ .running ∧ h.child ≠ .starting

instance (h : Handle) : Decidable (Dead h) := by
  unfold Dead
  infer_instance

/-- `swap` puts the new handle in the dictionary once the old child was joined or
killed; `check` and `start` are the end of the restart, or of `start()`. `broken` is
EOFError or OSError from the queue of a killed child. -/
def channelStep (s : Channel) : ChannelEvent → Option Channel
  | .put handle result =>
    let h := s.handles handle
    if h.child = .running then some (s.set handle { h with queue := h.queue.send true result })
    else none
  | .transfer handle =>
    let h := s.handles handle
    if h.child = .running then
      h.queue.transfer.map fun queue => s.set handle { h with queue := queue }
    else none
  | .exit handle =>
    let h := s.handles handle
    if h.child = .running ∧ h.queue.feeder = [] then
      some (s.set handle { h with child := .exited })
    else none
  | .kill handle =>
    let h := s.handles handle
    if h.child = .running then
      some (s.set handle { child := .killed, queue := { h.queue with feeder := [] } })
    else none
  | .swap => if Dead (s.handles s.current) then some { s with current := s.current + 1 } else none
  | .check =>
    let h := s.handles s.current
    if h.child = .notStarted ∧ s.running then some (s.set s.current { h with child := .starting })
    else none
  | .start =>
    let h := s.handles s.current
    if h.child = .starting then some (s.set s.current { h with child := .running }) else none
  | .stopCalled => some { s with running := false }
  | .stopReceivers => if s.running then none else some { s with receiversStop := true }
  | .test =>
    if s.receiver = .testing then
      some { s with receiver := if s.receiversStop then .returned else .looking }
    else none
  | .look =>
    if s.receiver = .looking then some { s with receiver := .getting s.current } else none
  | .take =>
    match s.receiver with
    | .getting handle =>
      let h := s.handles handle
      h.queue.take.map fun got =>
        { s.set handle { h with queue := got.2 } with receiver := .publishing handle got.1 }
    | _ => none
  | .expire =>
    match s.receiver with
    | .getting handle =>
      if (s.handles handle).queue.ready = [] then some { s with receiver := .testing } else none
    | _ => none
  | .broken =>
    match s.receiver with
    | .getting handle =>
      if (s.handles handle).child = .killed then some { s with receiver := .testing } else none
    | _ => none
  | .publish =>
    match s.receiver with
    | .publishing _ result =>
      some { s with
        receiver := .testing
        published := s.published ++ [result]
        lastLatencyS := result.sttLatencyS.or s.lastLatencyS }
    | _ => none

/-- The receiver is inside a get on the handle, which ends with an item if one is there. -/
def Reads (s : Channel) (handle : ℕ) : Prop :=
  s.receiver = .getting handle ∧ (s.handles handle).child ≠ .killed

/-- The receiver is past its stop test, and will read the current handle's queue. -/
def WillRead (s : Channel) : Prop :=
  (s.receiver = .looking ∨ s.receiver = .getting s.current) ∧
    (s.handles s.current).child ≠ .killed

/-- A child is killed with an empty feeder only; at a swap and when the receivers are
told to stop, the old child is gone and the receiver has read its queue to the end, or
has only the item of its next get left. -/
def Meets (s : Channel) : ChannelEvent → Prop
  | .kill handle => (s.handles handle).queue.feeder = []
  | .swap => (s.handles s.current).queue.Settled (Reads s s.current)
  | .stopReceivers => Dead (s.handles s.current) ∧
    (s.handles s.current).queue.Settled (WillRead s)
  | _ => True

instance (s : Channel) (event : ChannelEvent) : Decidable (Meets s event) := by
  cases event <;> unfold Meets Reads WillRead <;> infer_instance

/-- What holds as long as the steps meet the condition. -/
structure Delivering (s : Channel) : Prop where
  conserves : ∀ g, (s.handles g).queue.Conserves
  unborn : ∀ g, s.current < g → s.handles g = {}
  retired : ∀ g, g < s.current →
    Dead (s.handles g) ∧ (s.handles g).queue.Settled (Reads s g)
  behind : ∀ g, s.receiver.on = some g →
    g ≤ s.current ∧ ∀ h, g < h → (s.handles h).queue.taken = []
  stopped : s.receiversStop = true →
    s.running = false ∧ Dead (s.handles s.current) ∧
      (s.handles s.current).queue.Settled (WillRead s)
  gone : s.receiver = .returned → s.receiversStop = true
  held : ∀ g result, s.receiver = .publishing g result → (s.handles g).queue.taken ≠ []
  published : s.published ++ s.receiver.hand =
    (List.range (s.current + 1)).flatMap fun g => (s.handles g).queue.taken

@[simp] theorem set_same (s : Channel) (g : ℕ) (h : Handle) : (s.set g h).handles g = h := by
  simp [Channel.set]

theorem set_other (s : Channel) {g k : ℕ} (h : Handle) (other : k ≠ g) :
    (s.set g h).handles k = s.handles k := by
  simp [Channel.set, other]

/-- Only the current child runs, and not once the receivers are told to stop. -/
theorem Delivering.live {s : Channel} (h : Delivering s) {g : ℕ} (alive : ¬Dead (s.handles g)) :
    g = s.current ∧ s.receiversStop = false := by
  have current : g = s.current := by
    by_contra other
    rcases Nat.lt_or_gt_of_ne other with old | new
    · exact alive (h.retired g old).1
    · rw [h.unborn g new] at alive
      exact alive (by decide)
  refine ⟨current, ?_⟩
  by_contra flag
  rw [current] at alive
  exact alive (h.stopped (by simpa using flag)).2.1

/-- The current handle changes, and nothing is taken from it. -/
theorem Delivering.handle {s : Channel} (h : Delivering s) {g : ℕ} {new : Handle}
    (live : g = s.current ∧ s.receiversStop = false) (conserves : new.queue.Conserves)
    (taken : new.queue.taken = (s.handles g).queue.taken) : Delivering (s.set g new) := by
  obtain ⟨rfl, admitting⟩ := live
  have sameTaken (k : ℕ) : ((s.set s.current new).handles k).queue.taken =
      (s.handles k).queue.taken := by
    by_cases mine : k = s.current
    · rw [mine, set_same, taken]
    · rw [set_other s new mine]
  refine ⟨fun k => ?_, fun k later => ?_, fun k old => ?_, fun k on => ?_, fun flag => ?_,
    h.gone, fun k result publishing => ?_, ?_⟩
  · by_cases mine : k = s.current
    · rw [mine, set_same]
      exact conserves
    · rw [set_other s new mine]
      exact h.conserves k
  · have other : k ≠ s.current := Nat.ne_of_gt later
    rw [set_other s new other]
    exact h.unborn k later
  · have other : k ≠ s.current := Nat.ne_of_lt old
    have same := set_other s new other
    unfold Reads
    rw [same]
    exact h.retired k old
  · refine ⟨(h.behind k on).1, fun j later => ?_⟩
    rw [sameTaken]
    exact (h.behind k on).2 j later
  · have stopped : s.receiversStop = true := flag
    rw [admitting] at stopped
    cases stopped
  · rw [sameTaken]
    exact h.held k result publishing
  · simp only [sameTaken]
    exact h.published

/-- A get on a closed queue that ends, with an item or without, ends at its last. -/
theorem Delivering.drained {s : Channel} (h : Delivering s) {g : ℕ}
    (closed : g < s.current ∨ (g = s.current ∧ s.receiversStop = true))
    (elsewhere : s.receiver ≠ .getting g) (looked : s.receiver ≠ .looking) :
    (s.handles g).queue.unread = [] := by
  rcases closed with old | ⟨rfl, stop⟩
  · exact (Mailbox.settled_outside (fun reads => elsewhere reads.1)).mp (h.retired g old).2
  · refine (Mailbox.settled_outside (fun reads => ?_)).mp (h.stopped stop).2.2
    rcases reads.1 with looking | getting
    · exact looked looking
    · exact elsewhere getting

/-- The receiver lets go of its handle, with nothing left on any closed queue. -/
theorem Delivering.letGo {s : Channel} (h : Delivering s) {receiver : ReceiverAt}
    {published : List SttResult} (latency : Option ℚ)
    (drained : ∀ k, (k < s.current ∨ (k = s.current ∧ s.receiversStop = true)) →
      (s.handles k).queue.unread = [])
    (off : receiver.on = none) (gone : receiver = .returned → s.receiversStop = true)
    (log : published ++ receiver.hand = s.published ++ s.receiver.hand) :
    Delivering { s with
      receiver := receiver, published := published, lastLatencyS := latency } where
  conserves := h.conserves
  unborn := h.unborn
  retired k old := ⟨(h.retired k old).1, Or.inl (drained k (Or.inl old))⟩
  behind k on := by
    rw [off] at on
    cases on
  stopped stop := ⟨(h.stopped stop).1, (h.stopped stop).2.1,
    Or.inl (drained s.current (Or.inr ⟨rfl, stop⟩))⟩
  gone := gone
  held k result publishing := by
    have same : receiver = .publishing k result := publishing
    rw [same] at off
    cases off
  published := log.trans h.published

/-- A get that ends without an item, from a queue that is settled at that. -/
theorem Delivering.giveUp {s : Channel} (h : Delivering s) {g : ℕ}
    (getting : s.receiver = .getting g)
    (nothing : ∀ reading, (s.handles g).queue.Settled reading → (reading → Reads s g) →
      (s.handles g).queue.unread = []) : Delivering { s with receiver := .testing } := by
  refine h.letGo s.lastLatencyS (fun k closed => ?_) rfl (by simp) (by rw [getting]; rfl)
  by_cases mine : k = g
  · subst mine
    rcases closed with old | ⟨rfl, stop⟩
    · exact nothing _ (h.retired k old).2 id
    · exact nothing _ (h.stopped stop).2.2 fun reads => ⟨getting, reads.2⟩
  · exact h.drained closed (by simp [getting, Ne.symm mine]) (by simp [getting])

theorem flatMap_range_last {α : Type*} (f f' : ℕ → List α) {g n : ℕ} {x : α} (inside : g < n)
    (here : f' g = f g ++ [x]) (elsewhere : ∀ k, k ≠ g → f' k = f k)
    (after : ∀ k, g < k → f k = []) :
    (List.range n).flatMap f' = (List.range n).flatMap f ++ [x] := by
  induction n with
  | zero => omega
  | succ n ih =>
    simp only [List.range_succ, List.flatMap_append, List.flatMap_singleton]
    by_cases last : g = n
    · subst last
      have before : (List.range g).flatMap f' = (List.range g).flatMap f := by
        refine List.flatMap_congr fun k member => elsewhere k ?_
        have below := List.mem_range.mp member
        omega
      rw [before, here, List.append_assoc]
    · have later : g < n := by omega
      rw [ih later, elsewhere n (by omega), after n later, List.append_nil, List.append_nil]

theorem Delivering.take {s : Channel} (h : Delivering s) {g : ℕ} (getting : s.receiver = .getting g)
    {result : SttResult} {queue : Mailbox SttResult}
    (got : (s.handles g).queue.take = some (result, queue)) :
    Delivering { s.set g { s.handles g with queue := queue } with
      receiver := .publishing g result } := by
  obtain ⟨within, after⟩ := h.behind g (by simp [getting, ReceiverAt.on])
  obtain ⟨_, _, taken, _⟩ := Mailbox.take_unread got
  have others (k : ℕ) (other : k ≠ g) := set_other s { s.handles g with queue := queue } other
  have mineNow := set_same s g { s.handles g with queue := queue }
  have closed (k : ℕ) (shut : k < s.current ∨ (k = s.current ∧ s.receiversStop = true)) :
      ((s.set g { s.handles g with queue := queue }).handles k).queue.unread = [] := by
    by_cases mine : k = g
    · subst mine
      rw [mineNow]
      rcases shut with old | ⟨rfl, stop⟩
      · exact (h.retired k old).2.take got
      · exact (h.stopped stop).2.2.take got
    · rw [others k mine]
      exact h.drained shut (by simp [getting, Ne.symm mine]) (by simp [getting])
  have dead (k : ℕ) (was : Dead (s.handles k)) :
      Dead ((s.set g { s.handles g with queue := queue }).handles k) := by
    by_cases mine : k = g
    · subst mine
      rw [mineNow]
      exact was
    · rw [others k mine]
      exact was
  refine ⟨fun k => ?_, fun k later => ?_, fun k old => ⟨dead k (h.retired k old).1,
    Or.inl (closed k (Or.inl old))⟩, fun k on => ?_, fun stop => ⟨(h.stopped stop).1,
    dead _ (h.stopped stop).2.1, Or.inl (closed _ (Or.inr ⟨rfl, stop⟩))⟩, by simp,
    fun k result' publishing => ?_, ?_⟩
  · by_cases mine : k = g
    · subst mine
      rw [mineNow]
      exact (h.conserves k).take got
    · rw [others k mine]
      exact h.conserves k
  · have beyond : s.current < k := later
    rw [others k (by omega)]
    exact h.unborn k beyond
  · have same : g = k := by simpa [ReceiverAt.on] using on
    subst same
    refine ⟨within, fun j later => ?_⟩
    rw [others j (by omega)]
    exact after j later
  · cases publishing
    rw [mineNow]
    simp [taken]
  · have published := h.published
    simp only [getting, ReceiverAt.hand, List.append_nil] at published
    have last := flatMap_range_last (fun k => (s.handles k).queue.taken)
      (fun k => ((s.set g { s.handles g with queue := queue }).handles k).queue.taken)
      (n := s.current + 1) (by omega) (by simp only [mineNow]; exact taken)
      (fun k other => by simp only [others k other]) after
    rw [← published] at last
    exact last.symm

/-- The old handle joins those the receiver is done with, or is in its last get on. -/
theorem Delivering.swap {s : Channel} (h : Delivering s) (dead : Dead (s.handles s.current))
    (settled : (s.handles s.current).queue.Settled (Reads s s.current)) :
    Delivering { s with current := s.current + 1 } := by
  have fresh : s.handles (s.current + 1) = {} := h.unborn _ (Nat.lt_succ_self _)
  refine ⟨h.conserves, fun k later => h.unborn k ?_, fun k old => ?_, fun k on => ?_,
    fun stop => ⟨(h.stopped stop).1, ?_, Or.inl ?_⟩, h.gone, h.held, ?_⟩
  · have beyond : s.current + 1 < k := later
    omega
  · have notLater : k < s.current + 1 := old
    by_cases last : k = s.current
    · rw [last]
      exact ⟨dead, settled⟩
    · exact h.retired k (by omega)
  · obtain ⟨within, after⟩ := h.behind k on
    exact ⟨Nat.le_succ_of_le within, after⟩
  · simp only [fresh]
    decide
  · simp only [fresh]
    rfl
  · rw [List.range_succ, List.flatMap_append, ← h.published]
    simp [fresh]

theorem Delivering.look {s : Channel} (h : Delivering s) (looking : s.receiver = .looking) :
    Delivering { s with receiver := .getting s.current } := by
  have published := h.published
  rw [looking] at published
  refine ⟨h.conserves, h.unborn, fun k old => ⟨(h.retired k old).1, Or.inl ?_⟩, fun k on => ?_,
    fun stop => ⟨(h.stopped stop).1, (h.stopped stop).2.1, ?_⟩, by simp, by simp, published⟩
  · exact (Mailbox.settled_outside (by simp [Reads, looking])).mp (h.retired k old).2
  · have same : s.current = k := by simpa [ReceiverAt.on] using on
    subst same
    refine ⟨le_refl _, fun j later => ?_⟩
    simp [h.unborn j later]
  · have settled := (h.stopped stop).2.2
    simp only [WillRead, looking] at settled ⊢
    simpa using settled

/-- Every step that meets the condition keeps the results on their way. -/
theorem Delivering.step {s s' : Channel} {event : ChannelEvent} (h : Delivering s)
    (meets : Meets s event) (next : channelStep s event = some s') : Delivering s' := by
  cases event with
  | put g result =>
    simp only [channelStep] at next
    split at next <;> cases next
    rename_i running
    exact h.handle (h.live (by simp [Dead, running]))
      ((h.conserves g).send (by simp)) rfl
  | transfer g =>
    simp only [channelStep] at next
    split at next
    · rename_i running
      simp only [Option.map_eq_some_iff] at next
      obtain ⟨queue, moved, rfl⟩ := next
      exact h.handle (h.live (by simp [Dead, running])) ((h.conserves g).transfer moved)
        (Mailbox.transfer_unread moved).2.2
    · cases next
  | exit g =>
    simp only [channelStep] at next
    split at next <;> cases next
    rename_i running
    exact h.handle (h.live (by simp [Dead, running.1])) (h.conserves g) rfl
  | kill g =>
    simp only [channelStep] at next
    split at next <;> cases next
    rename_i running
    have flushed : (s.handles g).queue.feeder = [] := meets
    refine h.handle (h.live (by simp [Dead, running])) ?_ rfl
    have conserves := h.conserves g
    simpa [Mailbox.Conserves, Mailbox.unread, flushed] using conserves
  | swap =>
    simp only [channelStep] at next
    split at next <;> cases next
    rename_i dead
    exact h.swap dead meets
  | check =>
    simp only [channelStep] at next
    split at next <;> cases next
    rename_i ready
    have admitting : s.receiversStop = false := by
      by_contra flag
      have halted := (h.stopped (by simpa using flag)).1
      rw [ready.2] at halted
      cases halted
    exact h.handle ⟨rfl, admitting⟩ (h.conserves _) rfl
  | start =>
    simp only [channelStep] at next
    split at next <;> cases next
    rename_i starting
    exact h.handle (h.live (by simp [Dead, starting])) (h.conserves _) rfl
  | stopCalled =>
    cases next
    exact ⟨h.conserves, h.unborn, h.retired, h.behind,
      fun stop => ⟨rfl, (h.stopped stop).2⟩, h.gone, h.held, h.published⟩
  | stopReceivers =>
    simp only [channelStep] at next
    split at next <;> cases next
    rename_i halted
    exact ⟨h.conserves, h.unborn, h.retired, h.behind,
      fun _ => ⟨by simpa using halted, meets⟩, fun _ => rfl, h.held, h.published⟩
  | test =>
    simp only [channelStep] at next
    split at next <;> cases next
    rename_i testing
    refine h.letGo s.lastLatencyS
      (fun k closed => h.drained closed (by simp [testing]) (by simp [testing])) ?_ ?_ ?_
    · split <;> rfl
    · intro gone
      by_contra admitting
      simp [admitting] at gone
    · rw [testing]
      split <;> rfl
  | look =>
    simp only [channelStep] at next
    split at next <;> cases next
    rename_i looking
    exact h.look looking
  | take =>
    simp only [channelStep] at next
    split at next
    · rename_i g getting
      simp only [Option.map_eq_some_iff] at next
      obtain ⟨⟨result, queue⟩, got, rfl⟩ := next
      exact h.take getting got
    · cases next
  | expire =>
    simp only [channelStep] at next
    split at next
    · rename_i g getting
      split at next <;> cases next
      rename_i empty
      exact h.giveUp getting fun _ settled _ => settled.expire empty
    · cases next
  | broken =>
    simp only [channelStep] at next
    split at next
    · rename_i g getting
      split at next <;> cases next
      rename_i killed
      refine h.giveUp getting fun reading settled reads => ?_
      exact (Mailbox.settled_outside (fun inside => (reads inside).2 killed)).mp settled
    · cases next
  | publish =>
    simp only [channelStep] at next
    split at next <;> cases next
    rename_i g result publishing
    refine h.letGo _
      (fun k closed => h.drained closed (by simp [publishing]) (by simp [publishing])) rfl
      (by simp) ?_
    rw [publishing, ReceiverAt.hand]
    simp [ReceiverAt.hand]

theorem delivering_start : Delivering {} where
  conserves _ := rfl
  unborn _ _ := rfl
  retired g old := by simp at old
  behind g on := by simp [ReceiverAt.on] at on
  stopped := by simp
  gone := by simp
  held := by simp
  published := rfl

/-- What was put on the queues of the first `n` handles, in order. -/
def sent (s : Channel) (n : ℕ) : List SttResult :=
  (List.range n).flatMap fun g => (s.handles g).queue.put

theorem sent_succ (s : Channel) (n : ℕ) :
    sent s (n + 1) = sent s n ++ (s.handles n).queue.put := by
  simp [sent, List.range_succ, List.flatMap_append]

theorem sent_mono (s : Channel) {m n : ℕ} (fewer : m ≤ n) : sent s m <+: sent s n := by
  induction n, fewer using Nat.le_induction with
  | base => exact List.prefix_rfl
  | succ n _ ih =>
    rw [sent_succ]
    exact ih.trans (List.prefix_append _ _)

/-- The handle the receiver reads, or will read next. -/
def front (s : Channel) : ℕ := s.receiver.on.getD s.current

theorem Delivering.front_le {s : Channel} (h : Delivering s) : front s ≤ s.current := by
  unfold front
  cases on : s.receiver.on with
  | none => exact le_refl _
  | some g => exact (h.behind g on).1

/-- All that was sent before the handle at the front is published, and of that handle
what was taken. -/
theorem Delivering.published_front {s : Channel} (h : Delivering s) :
    s.published ++ s.receiver.hand =
      sent s (front s) ++ (s.handles (front s)).queue.taken := by
  have within := h.front_le
  have earlier (g : ℕ) (before : g < front s) :
      (s.handles g).queue.taken = (s.handles g).queue.put := by
    rw [(h.conserves g).taken_iff]
    refine (Mailbox.settled_outside (fun reads => ?_)).mp (h.retired g (by omega)).2
    simp [front, reads.1, ReceiverAt.on] at before
  have later (g : ℕ) (after : front s < g) : (s.handles g).queue.taken = [] := by
    unfold front at after
    cases on : s.receiver.on with
    | none =>
      rw [on] at after
      simp [h.unborn g after]
    | some k =>
      rw [on] at after
      exact (h.behind k on).2 g after
  have upTo (n : ℕ) (beyond : front s < n) :
      (List.range n).flatMap (fun g => (s.handles g).queue.taken) =
        sent s (front s) ++ (s.handles (front s)).queue.taken := by
    induction n, beyond using Nat.le_induction with
    | base =>
      rw [List.range_succ, List.flatMap_append, List.flatMap_singleton, sent]
      congr 1
      exact List.flatMap_congr fun g member => earlier g (List.mem_range.mp member)
    | succ n past ih =>
      rw [List.range_succ, List.flatMap_append, ih, List.flatMap_singleton, later n past,
        List.append_nil]
  rw [h.published, upTo _ (by omega)]

theorem Delivering.published_sent {s : Channel} (h : Delivering s) :
    s.published <+: sent s (s.current + 1) := by
  have within := h.front_le
  have soFar : s.published <+: sent s (front s) ++ (s.handles (front s)).queue.taken := by
    rw [← h.published_front]
    exact List.prefix_append _ _
  have all : sent s (front s) ++ (s.handles (front s)).queue.taken <+: sent s (front s + 1) := by
    rw [sent_succ, h.conserves (front s), ← List.append_assoc]
    exact List.prefix_append _ _
  exact (soFar.trans all).trans (sent_mono s (by omega))

/-- What is in hand came from the front, so all before the front is out. -/
theorem Delivering.sent_front {s : Channel} (h : Delivering s) :
    sent s (front s) <+: s.published := by
  have published := h.published_front
  cases receiver : s.receiver with
  | publishing k result =>
    have here : front s = k := by simp [front, receiver, ReceiverAt.on]
    have held := List.length_pos_of_ne_nil (h.held k result receiver)
    have lengths := congrArg List.length published
    simp only [receiver, here, ReceiverAt.hand, List.length_append, List.length_singleton]
      at lengths
    refine List.prefix_of_prefix_length_le ?_ (List.prefix_append _ s.receiver.hand) ?_
    · rw [published]
      exact List.prefix_append _ _
    · rw [here]
      omega
  | _ =>
    simp only [receiver, ReceiverAt.hand, List.append_nil] at published
    rw [published]
    exact List.prefix_append _ _

/-- In every run whose steps meet the condition the hub gets the results in the order
they were put, none twice; once the receiver has moved on past a handle, all that was
ever put on it and those before; and once it has returned, all that was ever put. -/
theorem published_of_met {events : List ChannelEvent} {s : Channel}
    (met : Along channelStep Meets {} events) (reached : run channelStep {} events = some s) :
    s.published <+: sent s (s.current + 1) ∧
      (∀ g < s.current, (∀ k, s.receiver.on = some k → g < k) → sent s (g + 1) <+: s.published) ∧
      (s.receiver = .returned → s.published = sent s (s.current + 1)) := by
  have delivering : Delivering s := run_invariant_along channelStep delivering_start
    (fun _ _ _ holds meets next => holds.step meets next) met reached
  refine ⟨delivering.published_sent, fun g old past => ?_, fun returned => ?_⟩
  · have beyond : g + 1 ≤ front s := by
      unfold front
      cases on : s.receiver.on with
      | none => exact old
      | some k => exact past k on
    exact (sent_mono s beyond).trans delivering.sent_front
  · have here : front s = s.current := by simp [front, returned, ReceiverAt.on]
    have drained := delivering.drained (Or.inr ⟨rfl, delivering.gone returned⟩)
      (by simp [returned]) (by simp [returned])
    have published := delivering.published_front
    simp only [returned, ReceiverAt.hand, List.append_nil, here] at published
    rw [published, sent_succ, (delivering.conserves s.current).taken_iff.mpr drained]

section Restart

def resultOf (segmentId : Str) : SttResult :=
  ⟨⟨['r'], segmentId, ['a'], 0, 1, true⟩, some 1⟩

/-- A child puts a result and exits once it is published; its replacement's only result
is waiting in the pipe, with the receiver in its get, when the receivers are told to
stop. -/
def readToTheEnd : List ChannelEvent :=
  [.check, .start, .test, .look, .put 0 (resultOf ['1']), .transfer 0, .take, .publish, .exit 0,
    .swap, .check, .start, .test, .look, .put 1 (resultOf ['2']), .stopCalled, .transfer 1,
    .exit 1, .stopReceivers, .take, .publish, .test]

theorem readToTheEnd_published :
    ∃ s, run channelStep {} readToTheEnd = some s ∧ s.receiver = .returned ∧
      s.published = sent s (s.current + 1) := by
  have reached : run channelStep {} readToTheEnd = some _ := rfl
  exact ⟨_, reached, rfl, (published_of_met (by decide +kernel) reached).2.2 rfl⟩

/-- The child puts two results and exits; the receivers are told to stop while the
first is being published. -/
def unreadAtStop : List ChannelEvent :=
  [.check, .start, .test, .look, .put 0 (resultOf ['1']), .put 0 (resultOf ['2']), .transfer 0,
    .transfer 0, .take, .stopCalled, .exit 0, .stopReceivers, .publish, .test]

theorem unreadAtStop_lost :
    ∃ s, run channelStep {} unreadAtStop = some s ∧ s.receiver = .returned ∧
      (s.handles 0).child = .exited ∧ resultOf ['2'] ∈ (s.handles 0).queue.put ∧
      resultOf ['2'] ∉ s.published := by
  refine ⟨_, rfl, rfl, rfl, ?_⟩
  decide +kernel

end Restart

end EdgeVoice.TranscriptReceiver
