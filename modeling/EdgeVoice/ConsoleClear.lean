import EdgeVoice.ConsoleStream

/-! The console's Clear button, and a reload of the page. The click empties this page at once;
its POST reaches the hub later or never, as the hub's own step. What was published before can
still be on the stream, or in the backlog when the POST was lost. -/

namespace EdgeVoice.ConsoleClear
open PythonText Models StepSystem Broadcast TranscriptHub ConsolePage ConsoleStream

/-- `cleared` is how much of what it got the page had got when it was last emptied. `notice` is
whether the element "No transcripts yet" is in the feed, and `hidden` its property. -/
structure Console where
  session : Session := {}
  cleared : ℕ := 0
  notice : Bool := true
  hidden : Bool := false

/-- `clear` is the click, confirmed. -/
inductive ConsoleEvent
  | session (e : SessionEvent)
  | clear
  | reload
deriving DecidableEq

def emptyFeed (page : Page) : Page := { page with feed := [], liveBubbles := fun _ => none }

def consoleStep (maxlen : ℕ) (c : Console) : ConsoleEvent → Option Console
  | .session e => (sessionStep maxlen c.session e).map fun session =>
    -- a new bubble is made by appendMessage(), which hides the notice
    { c with session, hidden := c.hidden || decide (c.session.page.nodes < session.page.nodes) }
  | .clear =>
    -- the loop removes all before the cursor row, and the notice stands there too
    some {
      session := { c.session with page := emptyFeed c.session.page }
      cleared := c.session.seen.length
      notice := false
      hidden := false }
  | .reload =>
    some {
      session := { c.session with page := {}, stream := none }
      cleared := c.session.seen.length }

/-- What the page got since it was last emptied. -/
def Console.since (c : Console) : List TranscriptEvent := c.session.seen.drop c.cleared

def Console.showsNotice (c : Console) : Bool := c.notice && !c.hidden

/-- Whether Clear was clicked since the page was last loaded. -/
def clicked : List ConsoleEvent → Bool :=
  List.foldl (fun before e => match e with
    | .session _ => before
    | .clear => true
    | .reload => false) false

theorem clicked_concat (past : List ConsoleEvent) (e : ConsoleEvent) :
    clicked (past ++ [e]) = match e with
      | .session _ => clicked past
      | .clear => true
      | .reload => false := by
  rw [clicked, List.foldl_append]
  rfl

section Reading

variable {messages : List TranscriptEvent} {page : Page} {m : TranscriptEvent} {b : Bubble}

def said (id : Str) (messages : List TranscriptEvent) : List TranscriptEvent :=
  messages.filter fun m => m.segmentId = id

/-- A bubble stands where its segment's first message put it, and reads as the latest. -/
structure Reads (messages : List TranscriptEvent) (b : Bubble) : Prop where
  first : (said b.segmentId messages).head?.map (fun m => (m.channelId, m.start)) =
    some (b.channelId, b.start)
  latest : (said b.segmentId messages).getLast?.map (fun m => (m.text, m.isFinal)) =
    some (b.text, !b.isPartial)

theorem said_concat_other {id : Str} (other : m.segmentId ≠ id) :
    said id (messages ++ [m]) = said id messages := by
  simp [said, other]

theorem said_concat_own :
    said m.segmentId (messages ++ [m]) = said m.segmentId messages ++ [m] := by
  simp [said]

theorem said_nil_of_unseen {id : Str} (unseen : ∀ x ∈ messages, x.segmentId ≠ id) :
    said id messages = [] :=
  List.filter_eq_nil_iff.mpr fun x member => by simpa using unseen x member

theorem Reads.other (reads : Reads messages b) (other : m.segmentId ≠ b.segmentId) :
    Reads (messages ++ [m]) b := by
  refine ⟨?_, ?_⟩
  · rw [said_concat_other other]
    exact reads.first
  · rw [said_concat_other other]
    exact reads.latest

/-- No segment whose final the page shows goes on, so a message without a live bubble is a
segment's first. -/
theorem first_of_untracked (shows : Shows messages page)
    (last : ∀ x ∈ messages, x.segmentId = m.segmentId → x.isFinal = false)
    (absent : page.liveBubbles m.segmentId = none) :
    (∀ b ∈ page.feed, b.segmentId ≠ m.segmentId) ∧
      ∀ x ∈ messages, x.segmentId ≠ m.segmentId := by
  have unseen : ∀ b ∈ page.feed, b.segmentId ≠ m.segmentId := by
    intro b member own
    obtain ⟨_, _, x, old, _, _, _, same, _, state⟩ := shows.source b member
    rw [last x old (same.trans own)] at state
    have tracked := (shows.tidy.tracked m.segmentId b.node).mpr
      ⟨b, member, rfl, own, by simpa using state⟩
    rw [absent] at tracked
    cases tracked
  refine ⟨unseen, fun x member own => ?_⟩
  obtain ⟨b, shown, same, _⟩ := shows.shown x member
  exact unseen b shown (same.trans own)

theorem reads_step (shows : Shows messages page) (reads : ∀ b ∈ page.feed, Reads messages b)
    (last : ∀ x ∈ messages, x.segmentId = m.segmentId → x.isFinal = false) :
    ∀ b ∈ (applyMessage page m).feed, Reads (messages ++ [m]) b := by
  intro b member
  cases found : page.liveBubbles m.segmentId with
  | none =>
    obtain ⟨unseen, fresh⟩ := first_of_untracked shows last found
    rw [applyMessage_new found] at member
    rcases mem_insertByTimestamp.mp member with rfl | old
    · have alone : said m.segmentId (messages ++ [m]) = [m] := by
        rw [said_concat_own, said_nil_of_unseen fresh, List.nil_append]
      exact ⟨by simp [renderMessage, alone], by simp [renderMessage, alone]⟩
    · exact (reads b old).other (unseen b old).symm
  | some node =>
    obtain ⟨target, there, rfl, own, _⟩ := (shows.tidy.tracked m.segmentId node).mp found
    rw [applyMessage_tracked found] at member
    obtain ⟨old, before, rfl⟩ := List.mem_map.mp member
    by_cases elsewhere : old = target
    · subst elsewhere
      have first := (reads old before).first
      have longer : said old.segmentId (messages ++ [m]) = said old.segmentId messages ++ [m] := by
        rw [own, said_concat_own]
      have nonempty : said old.segmentId messages ≠ [] := by
        intro silent
        rw [silent] at first
        cases first
      refine ⟨?_, ?_⟩
      · rw [revise_segmentId, revise_channelId, revise_start, longer,
          List.head?_append_of_ne_nil _ nonempty]
        exact first
      · rw [revise_segmentId, longer]
        simp [Bubble.revise]
    · have away : old.node ≠ target.node := fun same =>
        elsewhere (shows.tidy.same_node before there same)
      rw [Bubble.revise, if_neg away]
      exact (reads old before).other fun same =>
        elsewhere (shows.same_segment before there (same.symm.trans own.symm))

end Reading

section Behind

variable {maxlen : ℕ} {hub hub' : Hub} {q : ℕ} {messages : List TranscriptEvent}

/-- What a page shows was taken from the queue it reads, after what it had got before it joined;
and that was published by then, with no final of it in the seed. -/
structure Behind (hub : Hub) (q : ℕ) (messages : List TranscriptEvent) : Prop where
  known : q < hub.topic.count
  suffix : ∃ earlier, messages <:+ earlier ++ (hub.taken q).map Publication.item ∧
    ∀ m ∈ earlier, (∃ y ∈ hub.topic.published, y.number < hub.topic.joined q ∧ y.item = m) ∧
      (m.isFinal = true → ∀ x ∈ hub.seed q, x.item.segmentId ≠ m.segmentId)

theorem published_longer {e : HubEvent} (step : hubStep maxlen hub e = some hub') :
    hub.topic.published <+: hub'.topic.published := by
  rcases hubStep_topic step with same | ⟨e', moved, _⟩
  · rw [same]
  · rcases topicStep_published moved with same | ⟨publisher, event, order, _, longer⟩
    · rw [same]
    · rw [longer]
      exact List.prefix_append _ _

theorem Behind.emptied (behind : Behind hub q messages) : Behind hub q [] :=
  ⟨behind.known, [], List.nil_suffix, by simp⟩

theorem Behind.step {e : HubEvent} (behind : Behind hub q messages) (other : e ≠ .get q)
    (step : hubStep maxlen hub e = some hub') : Behind hub' q messages := by
  obtain ⟨still, place, longer⟩ := hubStep_known behind.known step
  obtain ⟨earlier, suffix, facts⟩ := behind.suffix
  refine ⟨still, earlier, ?_, fun m member => ?_⟩
  · rw [hubStep_taken other step]
    exact suffix
  · obtain ⟨⟨y, published, early, same⟩, unseeded⟩ := facts m member
    rw [place, hubStep_seed behind.known step]
    exact ⟨⟨y, longer.subset published, early, same⟩, unseeded⟩

/-- A page that joins has got nothing from its new queue. -/
theorem Behind.join {page : Page} (kept : Kept maxlen hub) (shows : Shows messages page)
    (published : ∀ m ∈ messages, ∃ x ∈ hub.topic.published, x.item = m)
    (unseen : ∀ x ∈ hub.backlog, ∀ b ∈ page.feed, b.segmentId = x.item.segmentId →
      b.isPartial = true)
    (joins : hub.subscribe = some hub') : Behind hub' hub.topic.count messages := by
  obtain rfl := subscribe_eq_some joins
  refine ⟨Nat.lt_succ_self _, messages, ?_, fun m member => ⟨?_, fun final x seeded same => ?_⟩⟩
  · simp only [(kept.idle (Nat.le_refl _)).1, List.map_nil, List.append_nil]
    exact List.suffix_rfl
  · obtain ⟨y, before, same⟩ := published m member
    refine ⟨y, before, ?_, same⟩
    simp only [Topic.join, Function.update_self]
    exact kept.topic.inv.lt before
  · simp only [Function.update_self] at seeded
    obtain ⟨b, shown, own, done⟩ := shows.shown m member
    have progress := unseen x ((replay_perm hub).mem_iff.mp seeded) b shown (own.trans same.symm)
    rw [done final] at progress
    cases progress

variable {x : Published} {rest : List Published}

theorem waiting_published (segments : Segments maxlen hub) (waits : hub.waiting q = x :: rest) :
    x ∈ hub.topic.published ∧ (x ∈ hub.seed q ∨ x ∈ hub.topic.live q) := by
  have queued : x ∈ hub.seed q ++ hub.topic.live q := by
    rw [← segments.kept.queue, waits]
    simp
  rcases List.mem_append.mp queued with seeded | live
  · exact ⟨((segments.seeded q).2 x seeded).1, Or.inl seeded⟩
  · exact ⟨(segments.kept.topic.live_since live).1, Or.inr live⟩

/-- Nothing on the queue is of a segment whose final is among the messages. -/
theorem Behind.no_final (behind : Behind hub q messages) (segments : Segments maxlen hub)
    (waits : hub.waiting q = x :: rest) :
    ∀ m ∈ messages, m.segmentId = x.item.segmentId → m.isFinal = false := by
  obtain ⟨earlier, suffix, facts⟩ := behind.suffix
  have closes := segments.queue_closes q
  rw [waits] at closes
  intro m member same
  rcases List.mem_append.mp (suffix.subset member) with old | new
  · obtain ⟨⟨y, published, early, rfl⟩, unseeded⟩ := facts m old
    rcases (waiting_published segments waits).2 with seeded | live
    · by_contra final
      exact unseeded (by simpa using final) x seeded same.symm
    · obtain ⟨published', late⟩ := segments.kept.topic.live_since live
      exact segments.before published published' (by omega) same
  · obtain ⟨y, taken, rfl⟩ := List.mem_map.mp new
    exact (List.pairwise_append.mp closes).2.2 y taken x List.mem_cons_self same

theorem Behind.get (behind : Behind hub q messages) (waits : hub.waiting q = x :: rest)
    (step : hubStep maxlen hub (.get q) = some hub') : Behind hub' q (messages ++ [x.item]) := by
  simp only [hubStep, waits, Option.some.injEq] at step
  subst step
  obtain ⟨earlier, suffix, facts⟩ := behind.suffix
  refine ⟨behind.known, earlier, ?_, facts⟩
  obtain ⟨front, whole⟩ := suffix
  refine ⟨front, ?_⟩
  simp only [Function.update_self, List.map_append, List.map_singleton]
  rw [← List.append_assoc, whole, List.append_assoc]

end Behind

section Runs

variable {maxlen : ℕ} {c d : Console} {e : ConsoleEvent} {labels : List ConsoleEvent}

/-- Publishers keep to the order of each segment, and no connect brings back a final that the
page shows. -/
def Meets (c : Console) : ConsoleEvent → Prop
  | .session e => InTurn c.session e ∧ Unseen c.session e
  | _ => True

instance : (c : Console) → (e : ConsoleEvent) → Decidable (Meets c e)
  | c, .session e => inferInstanceAs (Decidable (InTurn c.session e ∧ Unseen c.session e))
  | _, .clear | _, .reload => isTrue trivial

/-- The page shows what it got since it was emptied. -/
structure Current (maxlen : ℕ) (c : Console) : Prop where
  segments : Segments maxlen c.session.hub
  cleared : c.cleared ≤ c.session.seen.length
  shows : Shows c.since c.session.page
  reads : ∀ b ∈ c.session.page.feed, Reads c.since b
  published : ∀ m ∈ c.since, ∃ x ∈ c.session.hub.topic.published, x.item = m
  stream : ∀ q, c.session.stream = some q → Behind c.session.hub q c.since

theorem Current.start (maxlen : ℕ) : Current maxlen {} :=
  ⟨Segments.start maxlen, Nat.le_refl _, Shows.start, by simp, by simp [Console.since], by simp⟩

theorem shows_emptyFeed (page : Page) : Shows [] (emptyFeed page) := by
  refine ⟨⟨List.nodup_nil, ?_, ?_⟩, List.Pairwise.nil, List.nodup_nil, ?_, ?_⟩
  all_goals simp [emptyFeed]

theorem since_all (session : Session) (notice hidden : Bool) :
    Console.since ⟨session, session.seen.length, notice, hidden⟩ = [] := List.drop_length

theorem Current.hub (current : Current maxlen c) {e : HubEvent} {hub : Hub} {hidden : Bool}
    (respects : Respects c.session.hub e) (elsewhere : ∀ q, c.session.stream = some q → e ≠ .get q)
    (step : hubStep maxlen c.session.hub e = some hub) :
    Current maxlen { c with session := { c.session with hub }, hidden } := by
  have longer := published_longer step
  refine ⟨current.segments.step respects step, current.cleared, current.shows, current.reads,
    fun m member => ?_, fun q reads => (current.stream q reads).step (elsewhere q reads) step⟩
  obtain ⟨x, published, same⟩ := current.published m member
  exact ⟨x, longer.subset published, same⟩

theorem Current.deliver (current : Current maxlen c) {q : ℕ} {hub : Hub} {hidden : Bool}
    (reads : c.session.stream = some q) {x : Published} {rest : List Published}
    (waits : c.session.hub.waiting q = x :: rest)
    (step : hubStep maxlen c.session.hub (.get q) = some hub) :
    Current maxlen { c with
      session := { c.session with
        hub, page := applyMessage c.session.page x.item, seen := c.session.seen ++ [x.item] }
      hidden } := by
  have behind := current.stream q reads
  have last := behind.no_final current.segments waits
  have longer : (c.session.seen ++ [x.item]).drop c.cleared = c.since ++ [x.item] :=
    List.drop_append_of_le_length current.cleared
  have gets := behind.get waits step
  have same : hub.topic.published = c.session.hub.topic.published := by
    simp only [hubStep, waits, Option.some.injEq] at step
    rw [← step]
  refine ⟨current.segments.step (e := .get q) trivial step, ?_, ?_, ?_, fun m member => ?_,
    fun r reads' => ?_⟩
  · exact current.cleared.trans (List.length_append ▸ Nat.le_add_right _ _)
  · simp only [Console.since, longer]
    exact current.shows.step last
  · simp only [Console.since, longer]
    exact reads_step current.shows current.reads last
  · simp only [Console.since, longer] at member
    simp only [same]
    rcases List.mem_append.mp member with old | new
    · exact current.published m old
    · exact ⟨x, (waiting_published current.segments waits).1, (List.mem_singleton.mp new).symm⟩
  · obtain rfl : r = q := Option.some.inj (reads'.symm.trans reads)
    simp only [Console.since, longer]
    exact gets

theorem Current.step (current : Current maxlen c) (meets : Meets c e)
    (step : consoleStep maxlen c e = some d) : Current maxlen d := by
  cases e with
  | session e =>
    obtain ⟨session, acted, rfl⟩ := Option.map_eq_some_iff.mp step
    obtain ⟨inTurn, unseen⟩ := meets
    cases sessionStep_cases acted with
    | moved e hub elsewhere moved => exact current.hub inTurn elsewhere moved
    | connected hub joins =>
      have joined : hubStep maxlen c.session.hub .subscribe = some hub := by
        rw [hubStep, joins, Option.getD_some]
      have after : Current maxlen { c with session := { c.session with hub } } :=
        current.hub (e := .subscribe) trivial (by simp) joined
      refine ⟨after.segments, after.cleared, after.shows, after.reads, after.published,
        fun q reads => ?_⟩
      obtain rfl := Option.some.inj reads
      exact Behind.join current.segments.kept current.shows current.published unseen joins
    | refused =>
      exact ⟨current.segments, current.cleared, current.shows, current.reads, current.published,
        current.stream⟩
    | delivered q hub reads x rest waits moved => exact current.deliver reads waits moved
    | disconnected =>
      exact ⟨current.segments, current.cleared, current.shows, current.reads, current.published,
        fun q reads => by cases reads⟩
  | clear =>
    cases step
    refine ⟨current.segments, Nat.le_refl _, ?_, by simp [emptyFeed], ?_, fun q reads => ?_⟩
    · rw [since_all]
      exact shows_emptyFeed _
    · simp [since_all]
    · rw [since_all]
      exact (current.stream q reads).emptied
  | reload =>
    cases step
    refine ⟨current.segments, Nat.le_refl _, ?_, by simp, ?_, by simp⟩
    · rw [since_all]
      exact Shows.start
    · simp [since_all]

/-- The notice is hidden while there are bubbles, and gone after a click. -/
def Noticed (past : List ConsoleEvent) (c : Console) : Prop :=
  c.notice = !clicked past ∧ c.hidden = !c.session.page.feed.isEmpty

theorem Noticed.deliver {past : List ConsoleEvent} (noticed : Noticed past c)
    (m : TranscriptEvent) :
    (c.hidden || decide (c.session.page.nodes < (applyMessage c.session.page m).nodes)) =
      !(applyMessage c.session.page m).feed.isEmpty := by
  cases found : c.session.page.liveBubbles m.segmentId with
  | none =>
    have filled : insertByTimestamp (renderMessage c.session.page.nodes m) c.session.page.feed ≠
        [] := List.ne_nil_of_mem (mem_insertByTimestamp.mpr (Or.inl rfl))
    simp [applyMessage_new found, filled]
  | some node => simp [applyMessage_tracked found, noticed.2]

theorem Noticed.step {past : List ConsoleEvent} (noticed : Noticed past c)
    (step : consoleStep maxlen c e = some d) : Noticed (past ++ [e]) d := by
  rw [Noticed, clicked_concat]
  cases e with
  | session e =>
    obtain ⟨session, acted, rfl⟩ := Option.map_eq_some_iff.mp step
    refine ⟨noticed.1, ?_⟩
    cases sessionStep_cases acted with
    | delivered q hub reads x rest waits => exact noticed.deliver x.item
    | moved | connected | refused | disconnected => simpa using noticed.2
  | clear =>
    cases step
    exact ⟨rfl, rfl⟩
  | reload =>
    cases step
    exact ⟨rfl, rfl⟩

/-- Whatever is clicked and reloaded, the page has one bubble for each segment it got a message
of since it was last emptied, in spoken order, each placed by the first of these messages and
reading as the latest. The notice is on screen while there are none, but a click takes it away
until the page is loaded again. -/
theorem page_shows_since_clear (meets : Along (consoleStep maxlen) Meets {} labels)
    (reached : run (consoleStep maxlen) {} labels = some c) :
    (c.session.page.feed.map Bubble.segmentId).Nodup ∧
      (c.session.page.feed.Pairwise fun x y => x.start ≤ y.start) ∧
      (∀ id, id ∈ c.session.page.feed.map Bubble.segmentId ↔
        id ∈ c.since.map TranscriptEvent.segmentId) ∧
      (∀ b ∈ c.session.page.feed, Reads c.since b) ∧
      (c.showsNotice = true ↔ c.session.page.feed = [] ∧ clicked labels = false) := by
  have current := run_invariant_along (consoleStep maxlen) (Current.start maxlen)
    (fun _ _ _ current meets step => current.step meets step) meets reached
  have noticed := run_history (consoleStep maxlen) (I := Noticed) ⟨rfl, rfl⟩
    (fun _ _ _ _ noticed step => noticed.step step) reached
  refine ⟨current.shows.once, current.shows.sorted, fun id => ⟨?_, ?_⟩, current.reads, ?_⟩
  · intro member
    obtain ⟨b, shown, rfl⟩ := List.mem_map.mp member
    obtain ⟨first, got, _, _, own, _⟩ := current.shows.source b shown
    exact List.mem_map.mpr ⟨first, got, own⟩
  · intro member
    obtain ⟨m, got, rfl⟩ := List.mem_map.mp member
    obtain ⟨b, shown, own, _⟩ := current.shows.shown m got
    exact List.mem_map.mpr ⟨b, shown, own⟩
  · rw [Console.showsNotice, noticed.1, noticed.2]
    simp [and_comm]

/-- A click while a segment is being spoken: its final makes a bubble of its own. -/
def clickedAmid : List ConsoleEvent :=
  [.session .connect, .session (.hub (.publish 0 (saying ['a'] 1 false) [0])),
    .session (.hub (.put 0 false)), .session .deliver, .clear, .session (.hub .clear),
    .session (.hub (.publish 0 (saying ['a'] 1 true) [0])), .session (.hub (.put 0 false)),
    .session .deliver]

theorem clickedAmid_shows :
    ∃ c, run (consoleStep 1) {} clickedAmid = some c ∧ c.since = [saying ['a'] 1 true] ∧
      c.session.page.feed.map Bubble.look = [⟨0, ['a'], ['c'], 1, ['a'], false⟩] ∧
      (c.session.page.feed.map Bubble.segmentId).Nodup ∧ c.showsNotice = false := by
  have ends : ((run (consoleStep 1) {} clickedAmid).map fun c =>
      (c.since, c.session.page.feed.map Bubble.look)) =
        some ([saying ['a'] 1 true], [⟨0, ['a'], ['c'], 1, ['a'], false⟩]) := by
    decide +kernel
  obtain ⟨c, reached, facts⟩ := Option.map_eq_some_iff.mp ends
  obtain ⟨since, feed⟩ := Prod.mk.inj facts
  have shown := page_shows_since_clear (by decide +kernel) reached
  refine ⟨c, reached, since, feed, shown.1, ?_⟩
  have gone := shown.2.2.2.2.mp
  by_contra visible
  have clickless := (gone (by simpa using visible)).2
  exact absurd clickless (by decide)

end Runs

section Away

variable {maxlen n k : ℕ} {hub hub' : Hub} {c d f : Console} {e : ConsoleEvent} {q : ℕ}

/-- Published as number `n` or later. -/
def Late (n : ℕ) (hub : Hub) (x : Published) : Prop := x ∈ hub.topic.published ∧ n ≤ x.number

/-- The backlog, and the queues from number `k` on, carry nothing that was published earlier. -/
structure Renewed (maxlen n k : ℕ) (hub : Hub) : Prop where
  kept : Kept maxlen hub
  size : n ≤ hub.topic.published.length
  count : k ≤ hub.topic.count
  finals : ∀ x ∈ hub.finals, n ≤ x.number
  queues : ∀ q, k ≤ q → q < hub.topic.count →
    n ≤ hub.topic.joined q ∧ ∀ x ∈ hub.seed q, Late n hub x

/-- The hub's clear() is where that begins. -/
theorem Renewed.clear (kept : Kept maxlen hub) :
    Renewed maxlen hub.topic.published.length hub.topic.count hub.clear :=
  ⟨kept.step (e := .clear) rfl, Nat.le_refl _, Nat.le_refl _, by simp [Hub.clear],
    fun q later known => absurd known (Nat.not_lt.mpr later)⟩

/-- What replays is of the finals. -/
theorem mem_replay (kept : Kept maxlen hub) {x : Published} (member : x ∈ hub.replay) :
    x ∈ hub.finals ∧ x ∈ hub.topic.published := by
  have held := (replay_perm hub).mem_iff.mp member
  rw [kept.backlog] at held
  have final := List.mem_of_mem_drop held
  exact ⟨final, (List.mem_filter.mp (kept.finals.subset final)).1⟩

theorem Renewed.finals_step {e : HubEvent} (renewed : Renewed maxlen n k hub)
    (step : hubStep maxlen hub e = some hub') : ∀ x ∈ hub'.finals, n ≤ x.number := by
  cases hubStep_cases step with
  | published publisher event order =>
    intro x member
    simp only [Hub.publish] at member
    split at member
    · rcases List.mem_append.mp member with old | new
      · exact renewed.finals x old
      · rw [List.mem_singleton.mp new]
        exact renewed.size
    · exact renewed.finals x member
  | subscribed joined joins =>
    rw [subscribe_eq_some joins]
    exact renewed.finals
  | cleared => simp [Hub.clear]
  | put | dropped | refused | unsubscribed | got => exact renewed.finals

theorem Renewed.step {e : HubEvent} (renewed : Renewed maxlen n k hub)
    (step : hubStep maxlen hub e = some hub') : Renewed maxlen n k hub' := by
  have longer := published_longer step
  refine ⟨renewed.kept.step step, renewed.size.trans longer.length_le, ?_,
    renewed.finals_step step, fun q later known => ?_⟩
  · rcases hubStep_joins step with ⟨count, _⟩ | ⟨_, joins⟩
    · rw [count]
      exact renewed.count
    · rw [subscribe_eq_some joins]
      exact renewed.count.trans (Nat.le_succ _)
  · by_cases old : q < hub.topic.count
    · obtain ⟨_, place, _⟩ := hubStep_known old step
      obtain ⟨since, seeded⟩ := renewed.queues q later old
      rw [place, hubStep_seed old step]
      exact ⟨since, fun x member => ⟨longer.subset (seeded x member).1, (seeded x member).2⟩⟩
    · -- a queue made now is seeded from the backlog
      rcases hubStep_joins step with ⟨count, _⟩ | ⟨_, joins⟩
      · rw [count] at known
        exact absurd known old
      · obtain rfl := subscribe_eq_some joins
        obtain rfl : q = hub.topic.count := by
          simp only [Topic.join] at known
          omega
        simp only [Topic.join, Function.update_self]
        refine ⟨renewed.size, fun x member => ?_⟩
        obtain ⟨final, published⟩ := mem_replay renewed.kept member
        exact ⟨published, renewed.finals x final⟩

theorem Renewed.waiting (renewed : Renewed maxlen n k hub) (later : k ≤ q)
    (known : q < hub.topic.count) {x : Published} {rest : List Published}
    (waits : hub.waiting q = x :: rest) : Late n hub x := by
  obtain ⟨place, seeded⟩ := renewed.queues q later known
  have queued : x ∈ hub.seed q ++ hub.topic.live q := by
    rw [← renewed.kept.queue, waits]
    simp
  rcases List.mem_append.mp queued with seed | live
  · exact seeded x seed
  · obtain ⟨published, since⟩ := renewed.kept.topic.live_since live
    exact ⟨published, place.trans since⟩

variable {P P' : TranscriptEvent → Prop} {page : Page} {m : TranscriptEvent} {b : Bubble}

/-- A bubble was made, and last written, by messages of a kind. -/
def MadeOf (P : TranscriptEvent → Prop) (b : Bubble) : Prop :=
  (∃ m, P m ∧ m.segmentId = b.segmentId ∧ m.channelId = b.channelId ∧ m.start = b.start) ∧
    ∃ m, P m ∧ m.segmentId = b.segmentId ∧ m.text = b.text ∧ m.isFinal = !b.isPartial

theorem MadeOf.weaken (made : MadeOf P b) (weaker : ∀ m, P m → P' m) : MadeOf P' b := by
  obtain ⟨⟨first, one, facts⟩, last, two, facts'⟩ := made
  exact ⟨⟨first, weaker first one, facts⟩, last, weaker last two, facts'⟩

theorem madeOf_step (tidy : Tidy page) (made : ∀ b ∈ page.feed, MadeOf P b) (own : P m) :
    ∀ b ∈ (applyMessage page m).feed, MadeOf P b := by
  intro b member
  cases found : page.liveBubbles m.segmentId with
  | none =>
    rw [applyMessage_new found] at member
    rcases mem_insertByTimestamp.mp member with rfl | old
    · exact ⟨⟨m, own, rfl, rfl, rfl⟩, m, own, rfl, rfl, by simp [renderMessage]⟩
    · exact made b old
  | some node =>
    obtain ⟨target, there, rfl, id, _⟩ := (tidy.tracked m.segmentId node).mp found
    rw [applyMessage_tracked found] at member
    obtain ⟨old, before, rfl⟩ := List.mem_map.mp member
    obtain ⟨⟨first, one, same, channel, start⟩, written⟩ := made old before
    refine ⟨⟨first, one, by rw [same, revise_segmentId], by rw [channel, revise_channelId],
      by rw [start, revise_start]⟩, ?_⟩
    by_cases elsewhere : old = target
    · subst elsewhere
      exact ⟨m, own, by rw [revise_segmentId, id], by simp [Bubble.revise], by simp [Bubble.revise]⟩
    · have away : old.node ≠ target.node := fun same =>
        elsewhere (tidy.same_node before there same)
      rw [Bubble.revise, if_neg away]
      exact written

/-- To the hub a step of the console is one of its own steps, or none. -/
theorem consoleStep_hub (step : consoleStep maxlen c e = some d) :
    d.session.hub = c.session.hub ∨ ∃ e', hubStep maxlen c.session.hub e' = some d.session.hub := by
  cases e with
  | session e =>
    obtain ⟨session, acted, rfl⟩ := Option.map_eq_some_iff.mp step
    cases sessionStep_cases acted with
    | moved e hub elsewhere moved => exact Or.inr ⟨e, moved⟩
    | connected hub joins => exact Or.inr ⟨.subscribe, by rw [hubStep, joins, Option.getD_some]⟩
    | refused => exact Or.inl rfl
    | delivered q hub reads x rest waits moved => exact Or.inr ⟨.get q, moved⟩
    | disconnected => exact Or.inl rfl
  | clear =>
    cases step
    exact Or.inl rfl
  | reload =>
    cases step
    exact Or.inl rfl

theorem Renewed.console (renewed : Renewed maxlen n k c.session.hub)
    (step : consoleStep maxlen c e = some d) : Renewed maxlen n k d.session.hub := by
  rcases consoleStep_hub step with same | ⟨e', moved⟩
  · rw [same]
    exact renewed
  · exact renewed.step moved

/-- The page shows only what was published late. -/
structure Away (maxlen n k : ℕ) (c : Console) : Prop where
  renewed : Renewed maxlen n k c.session.hub
  tidy : Tidy c.session.page
  stream : ∀ q, c.session.stream = some q → k ≤ q ∧ q < c.session.hub.topic.count
  made : ∀ b ∈ c.session.page.feed,
    MadeOf (fun m => ∃ x, Late n c.session.hub x ∧ x.item = m) b

theorem tidy_step (tidy : Tidy c.session.page) (step : consoleStep maxlen c e = some d) :
    Tidy d.session.page := by
  cases e with
  | session e =>
    obtain ⟨session, acted, rfl⟩ := Option.map_eq_some_iff.mp step
    cases sessionStep_cases acted with
    | delivered q hub reads x rest waits => exact tidy.applyMessage x.item
    | moved | connected | refused | disconnected => exact tidy
  | clear =>
    cases step
    exact (shows_emptyFeed _).tidy
  | reload =>
    cases step
    exact Tidy.start

theorem Away.step (away : Away maxlen n k c) (step : consoleStep maxlen c e = some d) :
    Away maxlen n k d := by
  have renewed := away.renewed.console step
  have tidy := tidy_step away.tidy step
  cases e with
  | session e =>
    obtain ⟨session, acted, rfl⟩ := Option.map_eq_some_iff.mp step
    have remade {hub : Hub} {e : HubEvent} (moved : hubStep maxlen c.session.hub e = some hub)
        (b : Bubble) (member : b ∈ c.session.page.feed) :
        MadeOf (fun m => ∃ x, Late n hub x ∧ x.item = m) b :=
      (away.made b member).weaken fun m ⟨x, late, same⟩ =>
        ⟨x, ⟨(published_longer moved).subset late.1, late.2⟩, same⟩
    cases sessionStep_cases acted with
    | moved e hub elsewhere moved =>
      refine ⟨renewed, tidy, fun q reads => ?_, remade moved⟩
      obtain ⟨later, known⟩ := away.stream q reads
      exact ⟨later, (hubStep_known known moved).1⟩
    | connected hub joins =>
      have joined : hubStep maxlen c.session.hub .subscribe = some hub := by
        rw [hubStep, joins, Option.getD_some]
      refine ⟨renewed, tidy, fun q reads => ?_, remade joined⟩
      obtain rfl := Option.some.inj reads
      obtain rfl := subscribe_eq_some joins
      exact ⟨away.renewed.count, Nat.lt_succ_self _⟩
    | refused => exact ⟨renewed, tidy, away.stream, away.made⟩
    | delivered q hub reads x rest waits moved =>
      obtain ⟨later, known⟩ := away.stream q reads
      obtain ⟨published, late⟩ := away.renewed.waiting later known waits
      refine ⟨renewed, tidy, fun r reads' => ?_, ?_⟩
      · obtain ⟨later, known⟩ := away.stream r reads'
        exact ⟨later, (hubStep_known known moved).1⟩
      · exact madeOf_step away.tidy (remade moved)
          ⟨x, ⟨(published_longer moved).subset published, late⟩, rfl⟩
    | disconnected => exact ⟨renewed, tidy, by simp, away.made⟩
  | clear =>
    cases step
    exact ⟨renewed, tidy, away.stream, by simp [emptyFeed]⟩
  | reload =>
    cases step
    exact ⟨renewed, tidy, by simp, by simp⟩

/-- Once the hub has handled a Clear, a page that is empty and off its stream, as one that is
loaded again is, shows from then on only what was published after the Clear, whoever was amid a
publish or a put and however often it connects. -/
theorem cleared_stays_away {past between later : List ConsoleEvent}
    (reached : run (consoleStep maxlen) {} past = some c)
    (handled : run (consoleStep maxlen) c (.session (.hub .clear) :: between) = some d)
    (off : d.session.stream = none) (empty : d.session.page.feed = [])
    (onward : run (consoleStep maxlen) d later = some f) :
    ∀ b ∈ f.session.page.feed, MadeOf (fun m => ∃ x ∈ f.session.hub.topic.published,
      x ∉ c.session.hub.topic.published ∧ x.item = m) b := by
  have kept : Kept maxlen c.session.hub ∧ Tidy c.session.page :=
    run_invariant (consoleStep maxlen)
      (I := fun c => Kept maxlen c.session.hub ∧ Tidy c.session.page)
      ⟨Kept.start maxlen, Tidy.start⟩ (fun c e d before step => ⟨by
        rcases consoleStep_hub step with same | ⟨e', moved⟩
        · rw [same]
          exact before.1
        · exact before.1.step moved, tidy_step before.2 step⟩) reached
  rw [run_cons, Option.bind_eq_some_iff] at handled
  obtain ⟨c', cleared, between⟩ := handled
  have start : Renewed maxlen c.session.hub.topic.published.length c.session.hub.topic.count
      c'.session.hub ∧ Tidy c'.session.page := by
    have tidy := tidy_step kept.2 cleared
    obtain ⟨session, acted, rfl⟩ := Option.map_eq_some_iff.mp cleared
    cases sessionStep_cases acted with
    | moved e hub elsewhere moved =>
      cases moved
      exact ⟨Renewed.clear kept.1, tidy⟩
  have emptied := run_invariant (consoleStep maxlen)
    (I := fun c' : Console => Renewed maxlen c.session.hub.topic.published.length
      c.session.hub.topic.count c'.session.hub ∧ Tidy c'.session.page) start
    (fun _ _ _ before step => ⟨before.1.console step, tidy_step before.2 step⟩) between
  have away := run_invariant (consoleStep maxlen)
    (I := Away maxlen c.session.hub.topic.published.length c.session.hub.topic.count)
    ⟨emptied.1, emptied.2, by simp [off], by simp [empty]⟩
    (fun _ _ _ away step => away.step step) onward
  intro b member
  refine (away.made b member).weaken fun m ⟨x, late, same⟩ => ⟨x, late.1, fun old => ?_, same⟩
  have early := kept.1.topic.inv.lt old
  exact absurd late.2 (Nat.not_le.mpr early)

/-- A word is cleared, the page is loaded again, and another word is spoken. -/
theorem reloaded_shows_new :
    ∃ c d f, run (consoleStep 1) {} [.session .connect,
        .session (.hub (.publish 0 (saying ['a'] 1 true) [0])), .session (.hub (.put 0 false)),
        .session .deliver] = some c ∧
      run (consoleStep 1) c [.session (.hub .clear), .reload] = some d ∧
      run (consoleStep 1) d [.session .connect, .session (.hub (.unsubscribe 0)),
        .session (.hub (.publish 0 (saying ['b'] 2 true) [1])), .session (.hub (.put 0 false)),
        .session .deliver] = some f ∧
      c.session.page.feed.map Bubble.segmentId = [['a']] ∧
      f.session.page.feed.map Bubble.segmentId = [['b']] ∧
      ∀ b ∈ f.session.page.feed, MadeOf (fun m => ∃ x ∈ f.session.hub.topic.published,
        x ∉ c.session.hub.topic.published ∧ x.item = m) b := by
  have ends : ((run (consoleStep 1) {} [.session .connect,
      .session (.hub (.publish 0 (saying ['a'] 1 true) [0])), .session (.hub (.put 0 false)),
      .session .deliver]).bind fun c =>
        (run (consoleStep 1) c [.session (.hub .clear), .reload]).bind fun d =>
          (run (consoleStep 1) d [.session .connect, .session (.hub (.unsubscribe 0)),
            .session (.hub (.publish 0 (saying ['b'] 2 true) [1])),
            .session (.hub (.put 0 false)), .session .deliver]).bind fun f =>
              if c.session.page.feed.map Bubble.segmentId = [['a']] ∧ d.session.stream = none ∧
                d.session.page.feed = [] ∧
                f.session.page.feed.map Bubble.segmentId = [['b']] then some () else none) =
                  some () := by
    decide +kernel
  simp only [Option.bind_eq_some_iff, Option.ite_none_right_eq_some] at ends
  obtain ⟨c, reached, d, handled, f, onward, ⟨old, off, empty, new⟩, _⟩ := ends
  exact ⟨c, d, f, reached, handled, onward, old, new,
    cleared_stays_away reached handled off empty onward⟩

end Away

end EdgeVoice.ConsoleClear
