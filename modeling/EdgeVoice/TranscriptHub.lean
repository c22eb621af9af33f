import EdgeVoice.Broadcast
import EdgeVoice.Models

/-! TranscriptHub: the backlog of finals, and the subscribers' bounded queues. publish()
appends to the backlog and copies the subscribers under the lock, and puts on their queues
after it; subscribe(), unsubscribe() and clear() are one critical section each. Queues are
numbered as they are made. -/

namespace EdgeVoice.TranscriptHub
open Models StepSystem Broadcast

/-- `DEFAULT_SUBSCRIBER_MAXSIZE`. -/
def subscriberMaxsize : ℕ := 200

abbrev Published := Publication TranscriptEvent

/-- `seed` is what subscribe() put, `taken` what was read from a queue and `waiting` what is
on it; `finals` are the finals published since the last clear(). -/
structure Hub where
  topic : Topic TranscriptEvent := {}
  backlog : List Published := []
  seed : ℕ → List Published := fun _ => []
  taken : ℕ → List Published := fun _ => []
  waiting : ℕ → List Published := fun _ => []
  finals : List Published := []

/-- `queue.Full` is `none`. -/
def putNowait (queue : List Published) (x : Published) : Option (List Published) :=
  if queue.length < subscriberMaxsize then some (queue ++ [x]) else none

namespace Hub

/-- The critical section of publish(). The deque drops at its other end what `maxlen` does
not hold. -/
def publish (maxlen publisher : ℕ) (event : TranscriptEvent) (order : List ℕ) (hub : Hub) : Hub :=
  let x := hub.topic.next publisher event
  { hub with
    topic := hub.topic.publish publisher event order
    backlog := if event.isFinal then (hub.backlog ++ [x]).rtake maxlen else hub.backlog
    finals := if event.isFinal then hub.finals ++ [x] else hub.finals }

/-- `sorted(self._backlog, key=lambda e: e.start)`. -/
def replay (hub : Hub) : List Published :=
  hub.backlog.mergeSort fun x y => x.item.start ≤ y.item.start

/-- subscribe(), unless a put raises; the queue it returns is the number `topic.count`. -/
def subscribe (hub : Hub) : Option Hub :=
  (hub.replay.foldlM putNowait []).map fun queue =>
    { hub with
      topic := hub.topic.join
      seed := Function.update hub.seed hub.topic.count queue
      waiting := Function.update hub.waiting hub.topic.count queue }

def unsubscribe (q : ℕ) (hub : Hub) : Hub := { hub with topic := hub.topic.leave q }

def clear (hub : Hub) : Hub := { hub with backlog := [], finals := [] }

end Hub

/-- The steps of the callers' threads. `put` is a publisher's next put, which gives up when
the queue stays full, and `get` a subscriber's. -/
inductive HubEvent
  | publish (publisher : ℕ) (event : TranscriptEvent) (order : List ℕ)
  | put (publisher : ℕ) (full : Bool)
  | subscribe
  | unsubscribe (q : ℕ)
  | clear
  | get (q : ℕ)
deriving DecidableEq

def hubStep (maxlen : ℕ) (hub : Hub) : HubEvent → Option Hub
  | .publish publisher event order =>
    if hub.topic.pending publisher = [] ∧ order.Perm hub.topic.subscribers then
      some (hub.publish maxlen publisher event order)
    else none
  | .put publisher full =>
    match hub.topic.pending publisher with
    | [] => none
    | (x, q) :: _ =>
      match putNowait (hub.waiting q) x with
      | none => if full then some { hub with topic := hub.topic.settle publisher false } else none
      | some queue =>
        if full then none
        else
          some { hub with
            topic := hub.topic.settle publisher true
            waiting := Function.update hub.waiting q queue }
  | .subscribe => some (hub.subscribe.getD hub)
  | .unsubscribe q => some (hub.unsubscribe q)
  | .clear => some hub.clear
  | .get q =>
    match hub.waiting q with
    | [] => none
    | x :: rest =>
      some { hub with
        taken := Function.update hub.taken q (hub.taken q ++ [x])
        waiting := Function.update hub.waiting q rest }

section Seed

theorem putNowait_eq_some {queue queue' : List Published} {x : Published}
    (h : putNowait queue x = some queue') : queue' = queue ++ [x] := by
  simp only [putNowait, Option.ite_none_right_eq_some, Option.some.injEq] at h
  exact h.2.symm

theorem foldlM_putNowait (queue items : List Published)
    (fits : queue.length ≤ subscriberMaxsize) :
    items.foldlM putNowait queue =
      if queue.length + items.length ≤ subscriberMaxsize then some (queue ++ items) else none := by
  induction items generalizing queue with
  | nil => simp [fits]
  | cons x items ih =>
    rw [List.foldlM_cons, putNowait]
    by_cases room : queue.length < subscriberMaxsize
    · rw [if_pos room, Option.bind_eq_bind, Option.bind_some, ih (queue ++ [x]) (by simpa using room)]
      simp [Nat.add_assoc, Nat.add_comm 1]
    · have crowded : ¬queue.length + (x :: items).length ≤ subscriberMaxsize := by
        rw [List.length_cons]
        omega
      rw [if_neg room, if_neg crowded]
      rfl

/-- subscribe() raises when the backlog does not fit in a queue. -/
theorem subscribe_eq (hub : Hub) :
    hub.subscribe =
      if hub.backlog.length ≤ subscriberMaxsize then
        some { hub with
          topic := hub.topic.join
          seed := Function.update hub.seed hub.topic.count hub.replay
          waiting := Function.update hub.waiting hub.topic.count hub.replay }
      else none := by
  rw [Hub.subscribe, foldlM_putNowait [] hub.replay (Nat.zero_le _)]
  have size : hub.replay.length = hub.backlog.length := List.length_mergeSort _
  simp only [List.length_nil, Nat.zero_add, size, List.nil_append]
  by_cases room : hub.backlog.length ≤ subscriberMaxsize
  · simp only [if_pos room, Option.map_some]
  · simp only [if_neg room, Option.map_none]

theorem replay_perm (hub : Hub) : hub.replay.Perm hub.backlog := List.mergeSort_perm _ _

end Seed

section Steps

variable {maxlen : ℕ} {hub hub' : Hub} {e : HubEvent}

theorem rtake_concat (l : List Published) (x : Published) (n : ℕ) :
    (l.rtake n ++ [x]).rtake n = (l ++ [x]).rtake n := by
  cases n with
  | zero => simp
  | succ n =>
    rw [List.rtake_concat_succ, List.rtake_concat_succ]
    congr 1
    simp only [List.rtake, List.drop_drop, List.length_drop]
    congr 1
    omega

/-- All that a step can do to the hub. -/
inductive HubCase (maxlen : ℕ) (hub : Hub) : HubEvent → Hub → Prop
  | published (publisher : ℕ) (event : TranscriptEvent) (order : List ℕ)
      (idle : hub.topic.pending publisher = []) (visits : order.Perm hub.topic.subscribers) :
    HubCase maxlen hub (.publish publisher event order)
      (hub.publish maxlen publisher event order)
  | put (publisher q : ℕ) (x : Published) (rest : List (Published × ℕ))
      (owes : hub.topic.pending publisher = (x, q) :: rest) (queue : List Published)
      (room : putNowait (hub.waiting q) x = some queue) :
    HubCase maxlen hub (.put publisher false)
      { hub with
        topic := hub.topic.settle publisher true
        waiting := Function.update hub.waiting q queue }
  | dropped (publisher q : ℕ) (x : Published) (rest : List (Published × ℕ))
      (owes : hub.topic.pending publisher = (x, q) :: rest)
      (full : putNowait (hub.waiting q) x = none) :
    HubCase maxlen hub (.put publisher true)
      { hub with topic := hub.topic.settle publisher false }
  | subscribed (joined : Hub) (joins : hub.subscribe = some joined) :
    HubCase maxlen hub .subscribe joined
  | refused (full : hub.subscribe = none) : HubCase maxlen hub .subscribe hub
  | unsubscribed (q : ℕ) : HubCase maxlen hub (.unsubscribe q) (hub.unsubscribe q)
  | cleared : HubCase maxlen hub .clear hub.clear
  | got (q : ℕ) (x : Published) (rest : List Published) (waits : hub.waiting q = x :: rest) :
    HubCase maxlen hub (.get q)
      { hub with
        taken := Function.update hub.taken q (hub.taken q ++ [x])
        waiting := Function.update hub.waiting q rest }

theorem hubStep_cases (step : hubStep maxlen hub e = some hub') : HubCase maxlen hub e hub' := by
  cases e with
  | publish publisher event order =>
    simp only [hubStep, Option.ite_none_right_eq_some, Option.some.injEq] at step
    obtain ⟨⟨idle, visits⟩, rfl⟩ := step
    exact .published publisher event order idle visits
  | put publisher full =>
    cases owes : hub.topic.pending publisher with
    | nil => simp [hubStep, owes] at step
    | cons a rest =>
      simp only [hubStep, owes] at step
      cases room : putNowait (hub.waiting a.2) a.1 with
      | none =>
        simp only [room, Option.ite_none_right_eq_some, Option.some.injEq] at step
        obtain ⟨rfl, rfl⟩ := step
        exact .dropped publisher a.2 a.1 rest owes room
      | some queue =>
        simp only [room, Option.ite_none_left_eq_some, Option.some.injEq, Bool.not_eq_true] at step
        obtain ⟨rfl, rfl⟩ := step
        exact .put publisher a.2 a.1 rest owes queue room
  | subscribe =>
    cases joins : hub.subscribe with
    | none =>
      simp only [hubStep, joins, Option.getD_none, Option.some.injEq] at step
      subst step
      exact .refused joins
    | some joined =>
      simp only [hubStep, joins, Option.getD_some, Option.some.injEq] at step
      subst step
      exact .subscribed joined joins
  | unsubscribe q =>
    cases step
    exact .unsubscribed q
  | clear =>
    cases step
    exact .cleared
  | get q =>
    cases waits : hub.waiting q with
    | nil => simp [hubStep, waits] at step
    | cons x rest =>
      simp only [hubStep, waits, Option.some.injEq] at step
      subst step
      exact .got q x rest waits

/-- What a subscribe() that does not raise leaves. -/
theorem subscribe_eq_some {joined : Hub} (joins : hub.subscribe = some joined) :
    joined = { hub with
      topic := hub.topic.join
      seed := Function.update hub.seed hub.topic.count hub.replay
      waiting := Function.update hub.waiting hub.topic.count hub.replay } := by
  rw [subscribe_eq, Option.ite_none_right_eq_some, Option.some.injEq] at joins
  exact joins.2.symm

/-- To the topic a step of the hub is one of its own steps, or none. -/
theorem hubStep_topic (step : hubStep maxlen hub e = some hub') :
    hub'.topic = hub.topic ∨ ∃ e', topicStep hub.topic e' = some hub'.topic ∧
      ∀ publisher event order, e' = .publish publisher event order →
        e = .publish publisher event order := by
  cases hubStep_cases step with
  | published publisher event order idle visits =>
    refine Or.inr ⟨.publish publisher event order, if_pos ⟨idle, visits⟩, ?_⟩
    intro p item visits same
    cases same
    rfl
  | put publisher q x rest owes =>
    have busy : ¬hub.topic.pending publisher = [] := by simp [owes]
    exact Or.inr ⟨.settle publisher true, if_neg busy, by simp⟩
  | dropped publisher q x rest owes =>
    have busy : ¬hub.topic.pending publisher = [] := by simp [owes]
    exact Or.inr ⟨.settle publisher false, if_neg busy, by simp⟩
  | subscribed joined joins =>
    rw [subscribe_eq_some joins]
    exact Or.inr ⟨.join, rfl, by simp⟩
  | refused full => exact Or.inl rfl
  | unsubscribed q => exact Or.inr ⟨.leave q, rfl, by simp⟩
  | cleared => exact Or.inl rfl
  | got q x rest waits => exact Or.inl rfl

/-- What holds of the hub at any time. -/
structure Kept (maxlen : ℕ) (hub : Hub) : Prop where
  topic : Sound hub.topic
  backlog : hub.backlog = hub.finals.rtake maxlen
  finals : hub.finals.Sublist (hub.topic.published.filter fun x => x.item.isFinal)
  queue : ∀ q, hub.taken q ++ hub.waiting q = hub.seed q ++ hub.topic.live q
  unused : ∀ q, hub.topic.count ≤ q → hub.seed q = []

theorem Kept.start (maxlen : ℕ) : Kept maxlen {} :=
  ⟨Sound.start, (List.rtake_nil _).symm, List.Sublist.refl _, fun _ => rfl, fun _ _ => rfl⟩

theorem Kept.idle (kept : Kept maxlen hub) {q : ℕ} (new : hub.topic.count ≤ q) :
    hub.taken q = [] ∧ hub.waiting q = [] := by
  have nothing := kept.queue q
  rw [kept.unused q new, (kept.topic.inv.fresh q new).1] at nothing
  exact List.append_eq_nil_iff.mp nothing

theorem Kept.step (kept : Kept maxlen hub) (step : hubStep maxlen hub e = some hub') :
    Kept maxlen hub' := by
  have topic : Sound hub'.topic := by
    rcases hubStep_topic step with same | ⟨e', moved, _⟩
    · rw [same]
      exact kept.topic
    · exact kept.topic.step moved
  cases hubStep_cases step with
  | published publisher event order =>
    refine ⟨topic, ?_, ?_, kept.queue, kept.unused⟩
    · simp only [Hub.publish]
      by_cases final : event.isFinal = true
      · rw [if_pos final, if_pos final, kept.backlog, rtake_concat]
      · rw [if_neg final, if_neg final, kept.backlog]
    · simp only [Hub.publish, Topic.publish, List.filter_append]
      by_cases final : event.isFinal = true
      · rw [if_pos final]
        refine kept.finals.append ?_
        simp [Topic.next, final]
      · rw [if_neg final]
        exact kept.finals.trans (List.sublist_append_left _ _)
  | put publisher q x rest owes queue room =>
    refine ⟨topic, kept.backlog, ?_, fun r => ?_, ?_⟩
    · simpa [Topic.settle, owes] using kept.finals
    · have before := kept.queue r
      simp only [Topic.settle, owes, if_true]
      by_cases mine : r = q
      · subst mine
        rw [Function.update_self, Function.update_self, putNowait_eq_some room,
          ← List.append_assoc, before, List.append_assoc]
      · rw [Function.update_of_ne mine, Function.update_of_ne mine]
        exact before
    · simpa [Topic.settle, owes] using kept.unused
  | dropped publisher q x rest owes full =>
    refine ⟨topic, kept.backlog, ?_, ?_, ?_⟩
    · simpa [Topic.settle, owes] using kept.finals
    · simpa [Topic.settle, owes] using kept.queue
    · simpa [Topic.settle, owes] using kept.unused
  | subscribed joined joins =>
    obtain rfl := subscribe_eq_some joins
    refine ⟨topic, kept.backlog, kept.finals, fun q => ?_, fun q new => ?_⟩
    · by_cases mine : q = hub.topic.count
      · subst mine
        have silent : hub.topic.live hub.topic.count = [] :=
          (kept.topic.inv.fresh hub.topic.count (Nat.le_refl _)).1
        simp only [Topic.join, Function.update_self]
        rw [(kept.idle (Nat.le_refl _)).1, silent, List.nil_append, List.append_nil]
      · simpa [Topic.join, Function.update_of_ne mine] using kept.queue q
    · simp only [Topic.join] at new
      have other : q ≠ hub.topic.count := by omega
      simpa [Function.update_of_ne other] using kept.unused q (by omega)
  | refused full => exact kept
  | unsubscribed q => exact ⟨topic, kept.backlog, kept.finals, kept.queue, kept.unused⟩
  | cleared => exact ⟨topic, (List.rtake_nil _).symm, List.nil_sublist _, kept.queue, kept.unused⟩
  | got q x rest waits =>
    refine ⟨topic, kept.backlog, kept.finals, fun r => ?_, kept.unused⟩
    have before := kept.queue r
    by_cases mine : r = q
    · subst mine
      rw [waits] at before
      simpa using before
    · simpa [Function.update_of_ne mine] using before

theorem run_kept {es : List HubEvent} (h : run (hubStep maxlen) {} es = some hub) :
    Kept maxlen hub :=
  run_invariant (hubStep maxlen) (Kept.start maxlen) (fun _ _ _ kept step => kept.step step) h

end Steps

section Delivery

variable {maxlen : ℕ} {hub hub' joined : Hub} {e : HubEvent} {q : ℕ}

/-- What later steps leave as subscribe() made it. -/
structure Since (joined : Hub) (q : ℕ) (hub : Hub) : Prop where
  seed : hub.seed q = joined.seed q
  known : q < hub.topic.count
  place : hub.topic.joined q = joined.topic.joined q
  published : joined.topic.published <+: hub.topic.published

/-- Only subscribe() makes a queue and seeds it. -/
theorem hubStep_joins (step : hubStep maxlen hub e = some hub') :
    (hub'.topic.count = hub.topic.count ∧ hub'.seed = hub.seed) ∨
      e = .subscribe ∧ hub.subscribe = some hub' := by
  cases hubStep_cases step with
  | put publisher q x rest owes => exact Or.inl ⟨by simp [Topic.settle, owes], rfl⟩
  | dropped publisher q x rest owes => exact Or.inl ⟨by simp [Topic.settle, owes], rfl⟩
  | subscribed joined joins => exact Or.inr ⟨rfl, joins⟩
  | published | refused | unsubscribed | cleared | got => exact Or.inl ⟨rfl, rfl⟩

theorem hubStep_seed (known : q < hub.topic.count) (step : hubStep maxlen hub e = some hub') :
    hub'.seed q = hub.seed q := by
  rcases hubStep_joins step with ⟨_, same⟩ | ⟨_, joins⟩
  · rw [same]
  · rw [subscribe_eq_some joins]
    exact Function.update_of_ne (by omega) _ _

theorem Since.step (since : Since joined q hub) (step : hubStep maxlen hub e = some hub') :
    Since joined q hub' := by
  have seed := hubStep_seed since.known step
  rcases hubStep_topic step with same | ⟨e', moved, _⟩
  · exact ⟨seed.trans since.seed, same ▸ since.known, same ▸ since.place, same ▸ since.published⟩
  · obtain ⟨place, known, longer⟩ := topicStep_known since.known moved
    exact ⟨seed.trans since.seed, known, place.trans since.place, since.published.trans longer⟩

theorem Kept.subscribe (kept : Kept maxlen hub) (joins : hub.subscribe = some joined) :
    Kept maxlen joined :=
  kept.step (e := .subscribe) (by rw [hubStep, joins, Option.getD_some])

/-- The backlog is the newest of the finals, each of them once. -/
theorem Kept.backlog_finals (kept : Kept maxlen hub) :
    hub.backlog.Sublist (hub.topic.published.filter fun x => x.item.isFinal) := by
  rw [kept.backlog]
  exact (List.drop_sublist _ _).trans kept.finals

theorem Kept.backlog_nodup (kept : Kept maxlen hub) : hub.backlog.Nodup :=
  kept.topic.inv.nodup.sublist (kept.backlog_finals.trans List.filter_sublist)

/-- A transcript of one segment. -/
def saying (segmentId : PythonText.Str) (start : ℚ) (isFinal : Bool) : TranscriptEvent :=
  { channelId := ['c'], segmentId, text := segmentId, start, endTs := start + 1, isFinal }

end Delivery

section Capacity

variable {maxlen : ℕ}

/-- When subscribe() returns a queue, and what is then on it. -/
theorem subscribe_returns_iff {past : List HubEvent} {hub : Hub}
    (reached : run (hubStep maxlen) {} past = some hub) :
    (∃ joined, hub.subscribe = some joined ∧ hub.topic.count ∈ joined.topic.subscribers ∧
      (joined.waiting hub.topic.count).Perm hub.backlog) ↔
      min maxlen hub.finals.length ≤ subscriberMaxsize := by
  have kept := run_kept reached
  have size : hub.backlog.length = min maxlen hub.finals.length := by
    rw [kept.backlog, List.rtake, List.length_drop]
    omega
  rw [subscribe_eq, size]
  by_cases room : min maxlen hub.finals.length ≤ subscriberMaxsize
  · rw [if_pos room]
    refine iff_of_true ⟨_, rfl, by simp [Topic.join], ?_⟩ room
    simp only [Function.update_self]
    exact replay_perm hub
  · rw [if_neg room]
    simp [room]

theorem oneFinal_returned :
    ∃ hub, run (hubStep 1) {} [.publish 0 (saying ['a'] 1 true) []] = some hub ∧
      ∃ joined, hub.subscribe = some joined ∧ hub.topic.count ∈ joined.topic.subscribers ∧
        (joined.waiting hub.topic.count).Perm hub.backlog :=
  ⟨_, rfl, (@subscribe_returns_iff 1 [.publish 0 (saying ['a'] 1 true) []] _ rfl).mpr
    (by decide)⟩

/-- A publisher that nobody listens to. -/
theorem run_unheard (event : TranscriptEvent) (final : event.isFinal = true) (n : ℕ) :
    ∃ hub, run (hubStep maxlen) {} (List.replicate n (.publish 0 event [])) = some hub ∧
      hub.finals.length = n ∧ hub.topic.subscribers = [] ∧ hub.topic.pending 0 = [] := by
  induction n with
  | zero => exact ⟨{}, rfl, rfl, rfl, rfl⟩
  | succ n ih =>
    obtain ⟨hub, before, size, alone, idle⟩ := ih
    refine ⟨hub.publish maxlen 0 event [], ?_, ?_, alone, ?_⟩
    · rw [List.replicate_succ', run_concat]
      refine ⟨hub, before, if_pos ⟨idle, ?_⟩⟩
      rw [alone]
    · simp [Hub.publish, final, size]
    · simp [Hub.publish, Topic.publish]

theorem fullBacklog_raises :
    ∃ (past : List HubEvent) (hub : Hub),
      run (hubStep 201) {} past = some hub ∧ hub.subscribe = none := by
  obtain ⟨hub, reached, size, _⟩ :=
    @run_unheard 201 (saying ['a'] 1 true) rfl 201
  refine ⟨_, hub, reached, ?_⟩
  rw [subscribe_eq, (run_kept reached).backlog, List.rtake, List.length_drop, size, if_neg]
  decide

end Capacity

end EdgeVoice.TranscriptHub
