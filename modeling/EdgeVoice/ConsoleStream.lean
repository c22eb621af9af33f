import EdgeVoice.ConsolePage

/-! A console page on its event stream. The stream is a queue of the hub's, read in order into
applyMessage(); a lost connection loses what was still on it, and the reconnect subscribes
anew, to the same page. A segment's messages are published one after another, its final last. -/

namespace EdgeVoice.ConsoleStream
open PythonText Models StepSystem Broadcast TranscriptHub ConsolePage

/-- `seen` is what the page got since it was loaded, and `stream` the queue it reads. -/
structure Session where
  hub : Hub := {}
  page : Page := {}
  stream : Option ℕ := none
  seen : List TranscriptEvent := []

/-- `hub` are the publishers, the other clients and the server's own reads of queues whose
connection is gone. -/
inductive SessionEvent
  | hub (e : HubEvent)
  | connect
  | deliver
  | disconnect
deriving DecidableEq

def sessionStep (maxlen : ℕ) (s : Session) : SessionEvent → Option Session
  | .hub e =>
    if s.stream.map HubEvent.get = some e then none
    else (hubStep maxlen s.hub e).map fun hub => { s with hub }
  | .connect =>
    if s.stream.isSome then none
    else
      match s.hub.subscribe with
      | none => some s
      | some hub => some { s with hub, stream := some s.hub.topic.count }
  | .deliver =>
    match s.stream with
    | none => none
    | some q =>
      match s.hub.waiting q with
      | [] => none
      | x :: _ =>
        (hubStep maxlen s.hub (.get q)).map fun hub =>
          { s with hub, page := applyMessage s.page x.item, seen := s.seen ++ [x.item] }
  | .disconnect => some { s with stream := none }

section Segments

variable {maxlen : ℕ} {hub hub' : Hub} {e : HubEvent} {q : ℕ}

/-- A message is published when those of its segment have all been put and none was final. -/
def Respects (hub : Hub) : HubEvent → Prop
  | .publish _ event _ => ∀ x ∈ hub.topic.published, x.item.segmentId = event.segmentId →
    x.item.isFinal = false ∧ ∀ a ∈ hub.topic.pending x.publisher, a.1 ≠ x
  | _ => True

def ofSegment (id : Str) (x : Published) : Bool := decide (x.item.segmentId = id)

/-- Each segment's final is the last that is published of it, and its messages reach every
queue in their order. -/
structure Segments (maxlen : ℕ) (hub : Hub) : Prop where
  kept : Kept maxlen hub
  closes : hub.topic.published.Pairwise fun x y =>
    x.item.segmentId = y.item.segmentId → x.item.isFinal = false
  one : ∀ id, OneAtATime (ofSegment id) hub.topic
  order : ∀ id q, InOrder (ofSegment id) hub.topic q
  seeded : ∀ q, (hub.seed q).Nodup ∧ ∀ x ∈ hub.seed q, x ∈ hub.topic.published ∧
    x.item.isFinal = true ∧ x.number < hub.topic.joined q

theorem Segments.start (maxlen : ℕ) : Segments maxlen {} := by
  refine ⟨Kept.start maxlen, List.Pairwise.nil, ?_, fun _ q => InOrder.start q, ?_⟩
  · intro id p r a member
    cases member
  · intro r
    exact ⟨List.nodup_nil, by simp⟩

theorem Segments.waits (segments : Segments maxlen hub) {publisher : ℕ} {event : TranscriptEvent}
    {order : List ℕ} (respects : Respects hub (.publish publisher event order)) (id : Str) :
    Waits (ofSegment id) hub.topic (.publish publisher event order) := by
  intro kind p a owes
  by_contra own
  rw [Bool.not_eq_false, ofSegment, decide_eq_true_eq] at own
  rw [ofSegment, decide_eq_true_eq] at kind
  obtain ⟨published, mine, _⟩ := segments.kept.topic.inv.owed p a owes
  exact (respects a.1 published (own.trans kind.symm)).2 a (mine.symm ▸ owes) rfl

theorem Segments.step (segments : Segments maxlen hub) (respects : Respects hub e)
    (step : hubStep maxlen hub e = some hub') : Segments maxlen hub' := by
  have inv := segments.kept.topic.inv
  have kept := segments.kept.step step
  have topic : (∀ id, OneAtATime (ofSegment id) hub'.topic) ∧
      ∀ id r, InOrder (ofSegment id) hub'.topic r := by
    rcases hubStep_topic step with same | ⟨e', moved, publishes⟩
    · rw [same]
      exact ⟨segments.one, segments.order⟩
    · have waits (id : Str) : Waits (ofSegment id) hub.topic e' := by
        cases e' with
        | publish publisher event order =>
          have named := publishes publisher event order rfl
          subst named
          exact segments.waits respects id
        | settle publisher given => trivial
        | join => trivial
        | leave r => trivial
      exact ⟨fun id => (segments.one id).step (waits id) moved,
        fun id r => (segments.order id r).step inv (segments.one id) moved⟩
  have closes : hub'.topic.published.Pairwise fun x y =>
      x.item.segmentId = y.item.segmentId → x.item.isFinal = false := by
    rcases hubStep_topic step with same | ⟨e', moved, publishes⟩
    · rw [same]
      exact segments.closes
    · rcases topicStep_published moved with same | ⟨publisher, event, order, named, longer⟩
      · rw [same]
        exact segments.closes
      · obtain rfl := publishes publisher event order named
        rw [longer]
        refine List.pairwise_append.mpr ⟨segments.closes, List.pairwise_singleton _ _, ?_⟩
        intro x published y new same
        rw [List.mem_singleton.mp new] at same
        exact (respects x published same).1
  refine ⟨kept, closes, topic.1, topic.2, fun r => ?_⟩
  rcases hubStep_joins step with ⟨count, seeds⟩ | ⟨_, joins⟩
  · rw [seeds]
    by_cases known : r < hub.topic.count
    · rcases hubStep_topic step with same | ⟨e', moved, _⟩
      · rw [same]
        exact segments.seeded r
      · obtain ⟨place, _, longer⟩ := topicStep_known known moved
        obtain ⟨once, facts⟩ := segments.seeded r
        refine ⟨once, fun x member => ?_⟩
        obtain ⟨published, final, early⟩ := facts x member
        exact ⟨longer.subset published, final, place ▸ early⟩
    · rw [segments.kept.unused r (by omega)]
      exact ⟨List.nodup_nil, by simp⟩
  · obtain rfl := subscribe_eq_some joins
    by_cases mine : r = hub.topic.count
    · subst mine
      simp only [Function.update_self]
      refine ⟨(replay_perm hub).nodup_iff.mpr segments.kept.backlog_nodup, fun x member => ?_⟩
      obtain ⟨published, final⟩ := List.mem_filter.mp
        (segments.kept.backlog_finals.subset ((replay_perm hub).mem_iff.mp member))
      refine ⟨published, final, ?_⟩
      simp only [Topic.join, Function.update_self]
      exact inv.lt published
    · simp only [Topic.join, Function.update_of_ne mine]
      exact segments.seeded r

theorem Segments.before (segments : Segments maxlen hub) {x y : Published}
    (first : x ∈ hub.topic.published) (second : y ∈ hub.topic.published)
    (earlier : x.number < y.number) (same : x.item.segmentId = y.item.segmentId) :
    x.item.isFinal = false :=
  segments.kept.topic.inv.pairwise segments.closes first second earlier same

/-- Of the finals in a seed no two are of one segment. -/
theorem Segments.seed_closes (segments : Segments maxlen hub) (q : ℕ) :
    (hub.seed q).Pairwise fun x y => x.item.segmentId = y.item.segmentId →
      x.item.isFinal = false := by
  obtain ⟨once, facts⟩ := segments.seeded q
  refine (once.imp_of_mem fun {x y} first second other same => ?_)
  obtain ⟨published, final, _⟩ := facts x first
  obtain ⟨published', final', _⟩ := facts y second
  rcases lt_trichotomy x.number y.number with earlier | equal | later
  · exact segments.before published published' earlier same
  · exact absurd (segments.kept.topic.inv.number_inj published published' equal) other
  · rw [segments.before published' published later same.symm] at final'
    cases final'

/-- A queue carries nothing of a segment after its final. -/
theorem Segments.queue_closes (segments : Segments maxlen hub) (q : ℕ) :
    (hub.taken q ++ hub.waiting q).Pairwise fun x y =>
      x.item.segmentId = y.item.segmentId → x.item.isFinal = false := by
  rw [segments.kept.queue]
  refine List.pairwise_append.mpr ⟨segments.seed_closes q, ?_, fun x first y second same => ?_⟩
  · refine List.pairwise_iff_forall_sublist.mpr fun {x y} both same => ?_
    have ordered := ((both.filter (ofSegment y.item.segmentId)).trans
      (List.sublist_append_left _ _)).trans
      ((segments.order y.item.segmentId q).sublist.trans List.filter_sublist)
    have kind : ofSegment y.item.segmentId x = true := decide_eq_true same
    have kind' : ofSegment y.item.segmentId y = true := decide_eq_true rfl
    rw [List.filter_cons_of_pos kind, List.filter_cons_of_pos kind', List.filter_nil] at ordered
    exact List.pairwise_iff_forall_sublist.mp segments.closes ordered same
  · obtain ⟨published, _, early⟩ := (segments.seeded q).2 x first
    obtain ⟨published', late⟩ := segments.kept.topic.live_since second
    exact segments.before published published' (by omega) same

end Segments

section Sessions

variable {maxlen : ℕ} {s s' : Session} {e : SessionEvent}

/-- Publishers keep to the order of each segment. -/
def InTurn (s : Session) : SessionEvent → Prop
  | .hub e => Respects s.hub e
  | _ => True

/-- A connect finds no final in the backlog that the page has finalized already. -/
def Unseen (s : Session) : SessionEvent → Prop
  | .connect => ∀ x ∈ s.hub.backlog, ∀ b ∈ s.page.feed, b.segmentId = x.item.segmentId →
    b.isPartial = true
  | _ => True

instance : (hub : Hub) → (e : HubEvent) → Decidable (Respects hub e)
  | hub, .publish _ event _ =>
    inferInstanceAs (Decidable (∀ x ∈ hub.topic.published, x.item.segmentId = event.segmentId →
      x.item.isFinal = false ∧ ∀ a ∈ hub.topic.pending x.publisher, a.1 ≠ x))
  | _, .put _ _ | _, .subscribe | _, .unsubscribe _ | _, .clear | _, .get _ => isTrue trivial

instance : (s : Session) → (e : SessionEvent) → Decidable (InTurn s e)
  | s, .hub e => inferInstanceAs (Decidable (Respects s.hub e))
  | _, .connect | _, .deliver | _, .disconnect => isTrue trivial

instance : (s : Session) → (e : SessionEvent) → Decidable (Unseen s e)
  | s, .connect =>
    inferInstanceAs (Decidable (∀ x ∈ s.hub.backlog, ∀ b ∈ s.page.feed,
      b.segmentId = x.item.segmentId → b.isPartial = true))
  | _, .hub _ | _, .deliver | _, .disconnect => isTrue trivial

/-- What the page got before it connected was published then, and no final of it is in the
seed. -/
structure Linked (maxlen : ℕ) (s : Session) : Prop where
  segments : Segments maxlen s.hub
  shows : Shows s.seen s.page
  published : ∀ m ∈ s.seen, ∃ x ∈ s.hub.topic.published, x.item = m
  stream : ∀ q, s.stream = some q → q < s.hub.topic.count ∧
    ∃ earlier, s.seen = earlier ++ (s.hub.taken q).map Publication.item ∧
      ∀ m ∈ earlier, (∃ y ∈ s.hub.topic.published, y.number < s.hub.topic.joined q ∧ y.item = m) ∧
        (m.isFinal = true → ∀ x ∈ s.hub.seed q, x.item.segmentId ≠ m.segmentId)

theorem Linked.start (maxlen : ℕ) : Linked maxlen {} := by
  refine ⟨Segments.start maxlen, Shows.start, ?_, ?_⟩ <;> simp

theorem hubStep_taken {hub hub' : Hub} {e : HubEvent} {q : ℕ} (other : e ≠ .get q)
    (step : hubStep maxlen hub e = some hub') : hub'.taken q = hub.taken q := by
  cases hubStep_cases step with
  | subscribed joined joins => rw [subscribe_eq_some joins]
  | got r x rest waits =>
    have away : q ≠ r := fun same => other (by rw [same])
    exact Function.update_of_ne away _ _
  | published | put | dropped | refused | unsubscribed | cleared => rfl

/-- What a step of the hub keeps of a queue that exists. -/
theorem hubStep_known {hub hub' : Hub} {e : HubEvent} {q : ℕ} (known : q < hub.topic.count)
    (step : hubStep maxlen hub e = some hub') :
    q < hub'.topic.count ∧ hub'.topic.joined q = hub.topic.joined q ∧
      hub.topic.published <+: hub'.topic.published := by
  rcases hubStep_topic step with same | ⟨e', moved, _⟩
  · rw [same]
    exact ⟨known, rfl, List.prefix_rfl⟩
  · obtain ⟨place, still, longer⟩ := topicStep_known known moved
    exact ⟨still, place, longer⟩

theorem Linked.hub (linked : Linked maxlen s) {e : HubEvent} {hub : Hub}
    (respects : Respects s.hub e) (elsewhere : ∀ q, s.stream = some q → e ≠ .get q)
    (step : hubStep maxlen s.hub e = some hub) : Linked maxlen { s with hub } := by
  have segments := linked.segments.step respects step
  have longer : s.hub.topic.published <+: hub.topic.published := by
    rcases hubStep_topic step with same | ⟨e', moved, _⟩
    · rw [same]
    · rcases topicStep_published moved with same | ⟨publisher, event, order, _, longer⟩
      · rw [same]
      · rw [longer]
        exact List.prefix_append _ _
  refine ⟨segments, linked.shows, fun m member => ?_, fun q reads => ?_⟩
  · obtain ⟨x, published, same⟩ := linked.published m member
    exact ⟨x, longer.subset published, same⟩
  · obtain ⟨known, earlier, seen, facts⟩ := linked.stream q reads
    obtain ⟨still, place, _⟩ := hubStep_known known step
    refine ⟨still, earlier, ?_, fun m member => ?_⟩
    · simp only [hubStep_taken (elsewhere q reads) step]
      exact seen
    · obtain ⟨⟨y, published, early, same⟩, unseeded⟩ := facts m member
      refine ⟨⟨y, longer.subset published, ?_, same⟩, ?_⟩
      · simp only [place]
        exact early
      · simp only [hubStep_seed known step]
        exact unseeded

theorem Linked.connect (linked : Linked maxlen s) {hub : Hub} (unseen : Unseen s .connect)
    (joins : s.hub.subscribe = some hub) :
    Linked maxlen { s with hub, stream := some s.hub.topic.count } := by
  have step : hubStep maxlen s.hub .subscribe = some hub := by
    rw [hubStep, joins, Option.getD_some]
  have segments := linked.segments.step (e := .subscribe) trivial step
  obtain rfl := subscribe_eq_some joins
  refine ⟨segments, linked.shows, linked.published, fun q reads => ?_⟩
  obtain rfl := Option.some.inj reads
  refine ⟨Nat.lt_succ_self _, s.seen, ?_, fun m member => ⟨?_, fun final x seeded same => ?_⟩⟩
  · simp only [(linked.segments.kept.idle (Nat.le_refl _)).1, List.map_nil, List.append_nil]
  · obtain ⟨y, published, same⟩ := linked.published m member
    refine ⟨y, published, ?_, same⟩
    simp only [Topic.join, Function.update_self]
    exact linked.segments.kept.topic.inv.lt published
  · simp only [Function.update_self] at seeded
    obtain ⟨b, shown, own, done⟩ := linked.shows.shown m member
    have progress := unseen x ((replay_perm s.hub).mem_iff.mp seeded) b shown (own.trans same.symm)
    rw [done final] at progress
    cases progress

/-- Nothing on the stream is of a segment whose final the page has seen. -/
theorem Linked.no_final (linked : Linked maxlen s) {q : ℕ} (reads : s.stream = some q)
    {x : Published} {rest : List Published} (waits : s.hub.waiting q = x :: rest) :
    ∀ m ∈ s.seen, m.segmentId = x.item.segmentId → m.isFinal = false := by
  obtain ⟨_, earlier, seen, facts⟩ := linked.stream q reads
  have kept := linked.segments.kept
  have closes := linked.segments.queue_closes q
  rw [waits] at closes
  intro m member same
  rw [seen] at member
  rcases List.mem_append.mp member with old | new
  · obtain ⟨⟨y, published, early, rfl⟩, unseeded⟩ := facts m old
    have queued : x ∈ s.hub.seed q ++ s.hub.topic.live q := by
      rw [← kept.queue, waits]
      simp
    rcases List.mem_append.mp queued with seeded | live
    · by_contra final
      exact unseeded (by simpa using final) x seeded same.symm
    · obtain ⟨published', late⟩ := kept.topic.live_since live
      exact linked.segments.before published published' (by omega) same
  · obtain ⟨y, taken, rfl⟩ := List.mem_map.mp new
    exact (List.pairwise_append.mp closes).2.2 y taken x List.mem_cons_self same

theorem Linked.deliver (linked : Linked maxlen s) {q : ℕ} {hub : Hub} (reads : s.stream = some q)
    {x : Published} {rest : List Published} (waits : s.hub.waiting q = x :: rest)
    (step : hubStep maxlen s.hub (.get q) = some hub) :
    Linked maxlen { s with
      hub, page := applyMessage s.page x.item, seen := s.seen ++ [x.item] } := by
  have segments := linked.segments.step (e := .get q) trivial step
  have shows := linked.shows.step (linked.no_final reads waits)
  have queued : x ∈ s.hub.taken q ++ s.hub.waiting q := by
    rw [waits]
    simp
  rw [linked.segments.kept.queue] at queued
  have published : x ∈ s.hub.topic.published := by
    rcases List.mem_append.mp queued with seeded | live
    · exact ((linked.segments.seeded q).2 x seeded).1
    · exact (linked.segments.kept.topic.live_since live).1
  simp only [hubStep, waits, Option.some.injEq] at step
  subst step
  refine ⟨segments, shows, fun m member => ?_, fun r reads' => ?_⟩
  · rcases List.mem_append.mp member with old | new
    · exact linked.published m old
    · exact ⟨x, published, (List.mem_singleton.mp new).symm⟩
  · have same : r = q := Option.some.inj (reads'.symm.trans reads)
    subst same
    obtain ⟨known, earlier, seen, facts⟩ := linked.stream r reads
    refine ⟨known, earlier, ?_, facts⟩
    simp only [Function.update_self, List.map_append, List.map_singleton]
    rw [seen, List.append_assoc]

/-- All that a step can do to the page and its stream. -/
inductive SessionCase (maxlen : ℕ) (s : Session) : SessionEvent → Session → Prop
  | moved (e : HubEvent) (hub : Hub) (elsewhere : ∀ q, s.stream = some q → e ≠ .get q)
      (step : hubStep maxlen s.hub e = some hub) : SessionCase maxlen s (.hub e) { s with hub }
  | connected (hub : Hub) (joins : s.hub.subscribe = some hub) :
    SessionCase maxlen s .connect { s with hub, stream := some s.hub.topic.count }
  | refused : SessionCase maxlen s .connect s
  | delivered (q : ℕ) (hub : Hub) (reads : s.stream = some q) (x : Published)
      (rest : List Published) (waits : s.hub.waiting q = x :: rest)
      (step : hubStep maxlen s.hub (.get q) = some hub) :
    SessionCase maxlen s .deliver
      { s with hub, page := applyMessage s.page x.item, seen := s.seen ++ [x.item] }
  | disconnected : SessionCase maxlen s .disconnect { s with stream := none }

theorem sessionStep_cases (step : sessionStep maxlen s e = some s') :
    SessionCase maxlen s e s' := by
  cases e with
  | hub e =>
    simp only [sessionStep, Option.ite_none_left_eq_some, Option.map_eq_some_iff] at step
    obtain ⟨elsewhere, hub, moved, rfl⟩ := step
    exact .moved e hub (fun q reads same => elsewhere ⟨q, reads, same.symm⟩) moved
  | connect =>
    simp only [sessionStep, Option.ite_none_left_eq_some] at step
    obtain ⟨_, step⟩ := step
    cases joins : s.hub.subscribe with
    | none =>
      rw [joins] at step
      cases step
      exact .refused
    | some hub =>
      rw [joins] at step
      cases step
      exact .connected hub joins
  | deliver =>
    cases reads : s.stream with
    | none => simp [sessionStep, reads] at step
    | some q =>
      cases waits : s.hub.waiting q with
      | nil => simp [sessionStep, reads, waits] at step
      | cons x rest =>
        simp only [sessionStep, reads, waits, Option.map_eq_some_iff] at step
        obtain ⟨hub, moved, rfl⟩ := step
        rw [← reads]
        exact .delivered q hub reads x rest waits moved
  | disconnect =>
    cases step
    exact .disconnected

theorem Linked.step (linked : Linked maxlen s) (inTurn : InTurn s e) (unseen : Unseen s e)
    (step : sessionStep maxlen s e = some s') : Linked maxlen s' := by
  cases sessionStep_cases step with
  | moved e hub elsewhere moved => exact linked.hub inTurn elsewhere moved
  | connected hub joins => exact linked.connect unseen joins
  | refused => exact linked
  | delivered q hub reads x rest waits moved => exact linked.deliver reads waits moved
  | disconnected => exact ⟨linked.segments, linked.shows, linked.published, by simp⟩

theorem finalized_kept (linked : Linked maxlen s) (step : sessionStep maxlen s e = some s')
    {b : Bubble} (member : b ∈ s.page.feed) (done : b.isPartial = false) : b ∈ s'.page.feed := by
  cases sessionStep_cases step with
  | delivered q hub reads x rest waits => exact finalized_stays linked.shows.tidy member done
  | moved | connected | refused | disconnected => exact member

/-- In a run in which no connect brings back a final that the page has finalized, the feed has
one bubble a segment, and a finalized bubble stays as it is. -/
theorem one_bubble_a_segment {past later : List SessionEvent} {u : Session}
    (meets : Along (sessionStep maxlen) (fun m e => InTurn m e ∧ Unseen m e) {} (past ++ later))
    (before : run (sessionStep maxlen) {} past = some s)
    (after : run (sessionStep maxlen) s later = some u) :
    (u.page.feed.map Bubble.segmentId).Nodup ∧
      ∀ b ∈ s.page.feed, b.isPartial = false → b ∈ u.page.feed := by
  obtain ⟨meetsPast, meetsLater⟩ := (along_append (sessionStep maxlen) _ {} past later).mp meets
  have linked : Linked maxlen s := run_invariant_along (sessionStep maxlen) (Linked.start maxlen)
    (fun _ _ _ linked meets step => linked.step meets.1 meets.2 step) meetsPast before
  have ends : Linked maxlen u ∧ ∀ b ∈ s.page.feed, b.isPartial = false → b ∈ u.page.feed :=
    run_invariant_along (sessionStep maxlen)
      (I := fun m => Linked maxlen m ∧ ∀ b ∈ s.page.feed, b.isPartial = false → b ∈ m.page.feed)
      ⟨linked, fun _ member _ => member⟩
      (fun _ _ _ both meets step => ⟨both.1.step meets.1 meets.2 step, fun b member done =>
        finalized_kept both.1 step (both.2 b member done) done⟩)
      (meetsLater s before) after
  exact ⟨ends.1.shows.once, ends.2⟩

theorem revised_shows_once :
    ∃ s u : Session, run (sessionStep 1) {} [.connect, .hub (.publish 0 (saying ['a'] 1 false) [0]),
        .hub (.put 0 false), .deliver, .disconnect,
        .hub (.publish 0 (saying ['a'] 1 true) [0])] = some s ∧
      run (sessionStep 1) s [.hub (.put 0 false), .connect, .deliver] = some u ∧
      (u.page.feed.map Bubble.segmentId).Nodup ∧ u.page.feed.length = 1 := by
  have ends : ((run (sessionStep 1) {} [.connect, .hub (.publish 0 (saying ['a'] 1 false) [0]),
      .hub (.put 0 false), .deliver, .disconnect,
      .hub (.publish 0 (saying ['a'] 1 true) [0])]).bind fun s =>
        (run (sessionStep 1) s [.hub (.put 0 false), .connect, .deliver]).bind fun u =>
          if u.page.feed.length = 1 then some () else none) = some () := by
    decide +kernel
  simp only [Option.bind_eq_some_iff, Option.ite_none_right_eq_some] at ends
  obtain ⟨s, before, u, after, one, _⟩ := ends
  exact ⟨s, u, before, after, (one_bubble_a_segment (by decide +kernel) before after).1, one⟩

theorem reconnect_shows_twice :
    ∃ u : Session, run (sessionStep 1) {} [.connect, .hub (.publish 0 (saying ['a'] 1 true) [0]),
        .hub (.put 0 false), .deliver, .disconnect, .connect, .deliver] = some u ∧
      Along (sessionStep 1) InTurn {} [.connect, .hub (.publish 0 (saying ['a'] 1 true) [0]),
        .hub (.put 0 false), .deliver, .disconnect, .connect, .deliver] ∧
      u.page.feed.map Bubble.segmentId = [['a'], ['a']] := by
  have ends : ((run (sessionStep 1) {} [.connect, .hub (.publish 0 (saying ['a'] 1 true) [0]),
      .hub (.put 0 false), .deliver, .disconnect, .connect, .deliver]).map fun u =>
        u.page.feed.map Bubble.segmentId) = some [['a'], ['a']] := by
    decide +kernel
  obtain ⟨u, ran, twice⟩ := Option.map_eq_some_iff.mp ends
  exact ⟨u, ran, by decide +kernel, twice⟩

end Sessions

end EdgeVoice.ConsoleStream
