import EdgeVoice.TranscriptStream

/-! A console page and its server with the wire between them: the generator of a connection
takes events of its queue and sends their frames, and the page reads what comes, a character at
a time, until the connection is lost. To the hub and to the page a run is one of ConsoleStream,
in which whole messages are delivered or lost. -/

namespace EdgeVoice.StreamSession
open PythonText Models StepSystem Broadcast TranscriptHub ConsolePage ConsoleStream Framing
  TranscriptStream

/-- `queue` is what the generator reads, and `sent` what it yielded and has not come yet. -/
structure Connection where
  queue : ℕ
  sent : List Char := []
  reader : EventStream.Reader := {}

structure Wired where
  hub : Hub := {}
  page : Page := {}
  connection : Option Connection := none
  seen : List TranscriptEvent := []

/-- `hub` are the publishers, the other clients, and the generators whose connection is gone. -/
inductive WiredEvent
  | hub (e : HubEvent)
  | connect
  | send
  | receive
  | disconnect
deriving DecidableEq

/-- What the handler applies of some dispatched messages; a message that cannot be parsed raises
there, and is lost. -/
def heard (floats : Floats) (messages : List EventStream.Message) : List TranscriptEvent :=
  (messages.flatMap (onmessage floats)).reduceOption.map Stamped.event

section Steps

variable (floats : Floats) (createdAt : Published → ℚ) (maxlen : ℕ)

/-- A publication as it goes on the wire. -/
def stamped (x : Published) : Stamped := ⟨x.item, createdAt x⟩

def wiredStep (w : Wired) : WiredEvent → Option Wired
  | .hub e =>
    if w.connection.map (fun c => HubEvent.get c.queue) = some e then none
    else (hubStep maxlen w.hub e).map fun hub => { w with hub }
  | .connect =>
    if w.connection.isSome then none
    else
      match w.hub.subscribe with
      | none => some w
      | some hub => some { w with hub, connection := some { queue := w.hub.topic.count } }
  | .send =>
    match w.connection with
    | none => none
    | some c =>
      match w.hub.waiting c.queue with
      | [] => none
      | x :: _ =>
        (hubStep maxlen w.hub (.get c.queue)).map fun hub =>
          { w with
            hub
            connection := some { c with sent := c.sent ++ sseEvent floats (stamped createdAt x) } }
  | .receive =>
    match w.connection with
    | none => none
    | some c =>
      match c.sent with
      | [] => none
      | character :: sent =>
        let (reader, messages) := c.reader.read character
        some { w with
          page := (heard floats messages).foldl applyMessage w.page
          connection := some { c with sent, reader }
          seen := w.seen ++ heard floats messages }
  | .disconnect => some { w with connection := none }

/-- The floats of what is published survive the wire. -/
def Sends : WiredEvent → Prop
  | .hub (.publish _ event _) => floats.Exact event.start ∧ floats.Exact event.endTs
  | _ => True

instance : (e : WiredEvent) → Decidable (Sends floats e)
  | .hub (.publish _ event _) =>
    inferInstanceAs (Decidable (floats.Exact event.start ∧ floats.Exact event.endTs))
  | .hub (.put _ _) | .hub .subscribe | .hub (.unsubscribe _) | .hub .clear | .hub (.get _)
  | .connect | .send | .receive | .disconnect => isTrue trivial

end Steps

section Carried

variable {maxlen : ℕ} {hub hub' : Hub} {e : HubEvent} {P : Published → Prop}

/-- What a hub holds was published, and of a kind. -/
structure Carries (maxlen : ℕ) (P : Published → Prop) (hub : Hub) : Prop where
  kept : Kept maxlen hub
  seeded : ∀ q, ∀ x ∈ hub.seed q, x ∈ hub.topic.published
  kind : ∀ x ∈ hub.topic.published, P x

theorem Carries.start (maxlen : ℕ) (P : Published → Prop) : Carries maxlen P {} := by
  refine ⟨Kept.start maxlen, ?_, ?_⟩
  · intro q x member
    cases member
  · intro x member
    cases member

theorem Carries.published (carries : Carries maxlen P hub) {q : ℕ} {x : Published}
    (waits : x ∈ hub.waiting q) : x ∈ hub.topic.published := by
  have queued : x ∈ hub.taken q ++ hub.waiting q := List.mem_append_right _ waits
  rw [carries.kept.queue] at queued
  rcases List.mem_append.mp queued with seed | live
  · exact carries.seeded q x seed
  · exact (carries.kept.topic.live_since live).1

theorem Carries.waiting (carries : Carries maxlen P hub) {q : ℕ} {x : Published}
    (waits : x ∈ hub.waiting q) : P x := carries.kind x (carries.published waits)

/-- A step publishes one event or none. -/
theorem hubStep_published (step : hubStep maxlen hub e = some hub') :
    hub'.topic.published = hub.topic.published ∨
      ∃ publisher event order, e = .publish publisher event order ∧
        hub'.topic.published = hub.topic.published ++ [hub.topic.next publisher event] := by
  rcases hubStep_topic step with same | ⟨e', moved, publishes⟩
  · exact Or.inl (by rw [same])
  · rcases topicStep_published moved with same | ⟨publisher, event, order, named, longer⟩
    · exact Or.inl same
    · exact Or.inr ⟨publisher, event, order, publishes publisher event order named, longer⟩

theorem Carries.step (carries : Carries maxlen P hub)
    (sends : ∀ publisher event order, e = .publish publisher event order →
      P (hub.topic.next publisher event))
    (step : hubStep maxlen hub e = some hub') : Carries maxlen P hub' := by
  have longer : hub.topic.published ⊆ hub'.topic.published ∧
      ∀ x ∈ hub'.topic.published, P x := by
    rcases hubStep_published step with same | ⟨publisher, event, order, named, longer⟩
    · rw [same]
      exact ⟨List.Subset.refl _, carries.kind⟩
    · rw [longer]
      refine ⟨List.subset_append_left _ _, fun x member => ?_⟩
      rcases List.mem_append.mp member with old | new
      · exact carries.kind x old
      · rw [List.mem_singleton.mp new]
        exact sends publisher event order named
  refine ⟨carries.kept.step step, fun q x member => longer.1 ?_, longer.2⟩
  rcases hubStep_joins step with ⟨_, seeds⟩ | ⟨_, joins⟩
  · rw [seeds] at member
    exact carries.seeded q x member
  · obtain rfl := subscribe_eq_some joins
    simp only [Function.update_apply] at member
    split at member
    · have backlogged := (replay_perm hub).mem_iff.mp member
      exact List.mem_of_mem_filter (carries.kept.backlog_finals.subset backlogged)
    · exact carries.seeded q x member

end Carried

section Wire

variable {floats : Floats} {createdAt : Published → ℚ} {c : Connection}

abbrev wireFrame (floats : Floats) (createdAt : Published → ℚ) (x : Published) : List Char :=
  sseEvent floats (stamped createdAt x)

/-- `flight` are the messages on the wire: of the first of them a part, short of the whole, may
have come. -/
structure InFlight (floats : Floats) (createdAt : Published → ℚ) (flight : List Published)
    (c : Connection) : Prop where
  came : ∃ came, came ++ c.sent = flight.flatMap (wireFrame floats createdAt) ∧
    c.reader = (outputs EventStream.Reader.read {} came).1 ∧
    ∀ x ∈ flight.head?, came <+: wireFrame floats createdAt x ∧
      came ≠ wireFrame floats createdAt x
  exact : ∀ x ∈ flight, (stamped createdAt x).Exact floats

theorem InFlight.start (q : ℕ) : InFlight floats createdAt [] { queue := q } :=
  ⟨⟨[], rfl, rfl, by simp⟩, by simp⟩

theorem frame_nonempty (x : Published) : wireFrame floats createdAt x ≠ [] :=
  (sseEvent_framed (stamped createdAt x)).nonempty

theorem InFlight.send {flight : List Published} (h : InFlight floats createdAt flight c)
    {x : Published} (exact : (stamped createdAt x).Exact floats) :
    InFlight floats createdAt (flight ++ [x])
      { c with sent := c.sent ++ sseEvent floats (stamped createdAt x) } := by
  obtain ⟨came, split, reader, first⟩ := h.came
  refine ⟨⟨came, ?_, reader, fun y head => ?_⟩, fun y member => ?_⟩
  · rw [← List.append_assoc, split, List.flatMap_append, List.flatMap_singleton]
  · cases flight with
    | nil =>
      have nothing : came = [] := (List.append_eq_nil_iff.mp split).1
      subst nothing
      exact ⟨List.nil_prefix, (frame_nonempty y).symm⟩
    | cons z flight => exact first y head
  · rcases List.mem_append.mp member with old | new
    · exact h.exact y old
    · rw [List.mem_singleton.mp new]
      exact exact

theorem heard_nil : heard floats [] = [] := rfl

theorem heard_write {e : Stamped} (exact : e.Exact floats) :
    heard floats [⟨[], JsonText.write true (serialize floats e)⟩] = [e.event] := by
  rw [heard, List.flatMap_singleton, onmessage_write exact]
  rfl

/-- The next character is the last of the first message on the wire, which is then heard, or
changes nothing but the reader. -/
theorem InFlight.receive {flight : List Published} (h : InFlight floats createdAt flight c)
    {character : Char} {sent : List Char} (next : c.sent = character :: sent) :
    (∃ x later, flight = x :: later ∧
      heard floats (c.reader.read character).2 = [x.item] ∧
      InFlight floats createdAt later
        { c with sent, reader := (c.reader.read character).1 }) ∨
    (heard floats (c.reader.read character).2 = [] ∧
      InFlight floats createdAt flight
        { c with sent, reader := (c.reader.read character).1 }) := by
  obtain ⟨came, split, reader, first⟩ := h.came
  rw [next] at split
  cases flight with
  | nil => simp at split
  | cons x later =>
    have framed : Framed EventStream.Reader.read {} (wireFrame floats createdAt x)
        ⟨[], JsonText.write true (serialize floats (stamped createdAt x))⟩ := sseEvent_framed _
    obtain ⟨early, short⟩ := first x rfl
    rw [List.flatMap_cons] at split
    have shorter : came.length < (wireFrame floats createdAt x).length :=
      lt_of_le_of_ne early.length_le fun same => short (early.eq_of_length same)
    have inside : came ++ [character] <+: wireFrame floats createdAt x := by
      refine List.prefix_of_prefix_length_le ?_ (List.prefix_append _
        (later.flatMap (wireFrame floats createdAt))) ?_
      · rw [← split]
        exact ⟨sent, by simp⟩
      · rw [List.length_append, List.length_singleton]
        exact shorter
    by_cases last : came ++ [character] = wireFrame floats createdAt x
    · have read := Framed.last (last ▸ framed)
      rw [← reader] at read
      have rest : sent = later.flatMap (wireFrame floats createdAt) := by
        rw [← last, List.append_assoc, List.append_cancel_left_eq] at split
        simpa using split
      refine Or.inl ⟨x, later, rfl, ?_, ⟨[], ?_, ?_, fun y head => ?_⟩, fun y member => ?_⟩
      · rw [read]
        exact heard_write (h.exact x List.mem_cons_self)
      · exact rest
      · simp only [read, outputs_nil]
      · exact ⟨List.nil_prefix, (frame_nonempty y).symm⟩
      · exact h.exact y (List.mem_cons_of_mem _ member)
    · have read := framed.inside inside last
      rw [← reader] at read
      refine Or.inr ⟨?_, ⟨came ++ [character], ?_, ?_, fun y head => ?_⟩, h.exact⟩
      · rw [read, heard_nil]
      · rw [List.flatMap_cons, ← split]
        simp
      · simp only [read]
      · rw [List.head?_cons, Option.mem_some_iff] at head
        exact head ▸ ⟨inside, last⟩

end Wire

section Simulation

variable {floats : Floats} {createdAt : Published → ℚ} {maxlen : ℕ}
variable {w w' : Wired} {e : WiredEvent}

/-- All that a step can do. -/
inductive WiredCase (floats : Floats) (createdAt : Published → ℚ) (maxlen : ℕ) (w : Wired) :
    WiredEvent → Wired → Prop
  | moved (e : HubEvent) (hub : Hub)
      (elsewhere : w.connection.map (fun c => HubEvent.get c.queue) ≠ some e)
      (step : hubStep maxlen w.hub e = some hub) :
    WiredCase floats createdAt maxlen w (.hub e) { w with hub }
  | connected (free : w.connection = none) (hub : Hub) (joins : w.hub.subscribe = some hub) :
    WiredCase floats createdAt maxlen w .connect
      { w with hub, connection := some { queue := w.hub.topic.count } }
  | refused (free : w.connection = none) (full : w.hub.subscribe = none) :
    WiredCase floats createdAt maxlen w .connect w
  | sent (c : Connection) (reads : w.connection = some c) (x : Published) (rest : List Published)
      (waits : w.hub.waiting c.queue = x :: rest) (hub : Hub)
      (step : hubStep maxlen w.hub (.get c.queue) = some hub) :
    WiredCase floats createdAt maxlen w .send
      { w with
        hub
        connection := some { c with sent := c.sent ++ sseEvent floats (stamped createdAt x) } }
  | received (c : Connection) (reads : w.connection = some c) (character : Char)
      (sent : List Char) (next : c.sent = character :: sent) :
    WiredCase floats createdAt maxlen w .receive
      { w with
        page := (heard floats (c.reader.read character).2).foldl applyMessage w.page
        connection := some { c with sent, reader := (c.reader.read character).1 }
        seen := w.seen ++ heard floats (c.reader.read character).2 }
  | disconnected : WiredCase floats createdAt maxlen w .disconnect { w with connection := none }

theorem wiredStep_cases (step : wiredStep floats createdAt maxlen w e = some w') :
    WiredCase floats createdAt maxlen w e w' := by
  cases e with
  | hub e =>
    simp only [wiredStep, Option.ite_none_left_eq_some, Option.map_eq_some_iff] at step
    obtain ⟨elsewhere, hub, moved, rfl⟩ := step
    refine .moved e hub (fun same => elsewhere ?_) moved
    simpa only [Option.map_eq_some_iff] using same
  | connect =>
    simp only [wiredStep, Option.ite_none_left_eq_some, Option.not_isSome_iff_eq_none] at step
    obtain ⟨free, step⟩ := step
    cases joins : w.hub.subscribe with
    | none =>
      rw [joins] at step
      cases step
      exact .refused free joins
    | some hub =>
      rw [joins] at step
      cases step
      exact .connected free hub joins
  | send =>
    cases reads : w.connection with
    | none => simp [wiredStep, reads] at step
    | some c =>
      cases waits : w.hub.waiting c.queue with
      | nil => simp [wiredStep, reads, waits] at step
      | cons x rest =>
        simp only [wiredStep, reads, waits, Option.map_eq_some_iff] at step
        obtain ⟨hub, moved, rfl⟩ := step
        exact .sent c reads x rest waits hub moved
  | receive =>
    cases reads : w.connection with
    | none => simp [wiredStep, reads] at step
    | some c =>
      cases next : c.sent with
      | nil => simp [wiredStep, reads, next] at step
      | cons character sent =>
        simp only [wiredStep, reads, next, Option.some.injEq] at step
        subst step
        exact .received c reads character sent next
  | disconnect =>
    cases step
    exact .disconnected

/-- Publishers keep to the order of each segment. -/
def WiredInTurn (w : Wired) : WiredEvent → Prop
  | .hub e => Respects w.hub e
  | _ => True

/-- A connect finds no final in the backlog that the page has finalized already. -/
def WiredUnseen (w : Wired) : WiredEvent → Prop
  | .connect => ∀ x ∈ w.hub.backlog, ∀ b ∈ w.page.feed, b.segmentId = x.item.segmentId →
    b.isPartial = true
  | _ => True

instance : (w : Wired) → (e : WiredEvent) → Decidable (WiredInTurn w e)
  | w, .hub e => inferInstanceAs (Decidable (Respects w.hub e))
  | _, .connect | _, .send | _, .receive | _, .disconnect => isTrue trivial

instance : (w : Wired) → (e : WiredEvent) → Decidable (WiredUnseen w e)
  | w, .connect =>
    inferInstanceAs (Decidable (∀ x ∈ w.hub.backlog, ∀ b ∈ w.page.feed,
      b.segmentId = x.item.segmentId → b.isPartial = true))
  | _, .hub _ | _, .send | _, .receive | _, .disconnect => isTrue trivial

/-- A run of whole messages in which those on the wire that will come have come already, and
the others are lost. -/
structure Ahead (floats : Floats) (createdAt : Published → ℚ) (maxlen : ℕ)
    (past : List WiredEvent) (w : Wired) (arrives lost : List Published) (es : List SessionEvent)
    (s : Session) : Prop where
  reached : run (sessionStep maxlen) {} es = some s
  hub : s.hub = w.hub
  seen : s.seen = w.seen ++ arrives.map Publication.item
  page : s.page = (arrives.map Publication.item).foldl applyMessage w.page
  stream : s.stream = if lost = [] then w.connection.map Connection.queue else none
  meets : Along (wiredStep floats createdAt maxlen)
      (fun m e => WiredInTurn m e ∧ WiredUnseen m e) {} past →
    Along (sessionStep maxlen) (fun m e => InTurn m e ∧ Unseen m e) {} es

/-- However the messages on the wire are divided into those that will come and those that will
not, there is such a run. -/
structure Simulated (floats : Floats) (createdAt : Published → ℚ) (maxlen : ℕ)
    (past : List WiredEvent) (w : Wired) : Prop where
  carries : Carries maxlen (fun x => (stamped createdAt x).Exact floats) w.hub
  flight : ∃ flight, (∀ c, w.connection = some c → InFlight floats createdAt flight c) ∧
    (w.connection = none → flight = []) ∧
    ∀ arrives lost, flight = arrives ++ lost →
      ∃ es s, Ahead floats createdAt maxlen past w arrives lost es s

variable {past : List WiredEvent} {arrives lost : List Published} {es : List SessionEvent}
variable {s : Session}

/-- One more step of the wire, and one of the session. -/
theorem Ahead.follow (h : Ahead floats createdAt maxlen past w arrives lost es s)
    (reached : run (wiredStep floats createdAt maxlen) {} past = some w) {f : SessionEvent}
    {s' : Session} (step : sessionStep maxlen s f = some s')
    (allowed : WiredInTurn w e ∧ WiredUnseen w e → InTurn s f ∧ Unseen s f) :
    run (sessionStep maxlen) {} (es ++ [f]) = some s' ∧
      (Along (wiredStep floats createdAt maxlen) (fun m e => WiredInTurn m e ∧ WiredUnseen m e) {}
          (past ++ [e]) →
        Along (sessionStep maxlen) (fun m e => InTurn m e ∧ Unseen m e) {} (es ++ [f])) := by
  refine ⟨(run_concat _ _ _ _ _).mpr ⟨s, h.reached, step⟩, fun met => ?_⟩
  obtain ⟨before, now⟩ := (along_append _ _ _ _ _).mp met
  refine (along_append _ _ _ _ _).mpr ⟨h.meets before, fun t arrived => ?_⟩
  rw [h.reached] at arrived
  cases arrived
  exact ⟨allowed (now w reached).1, fun _ _ => trivial⟩

/-- One more step of the wire, and none of the session. -/
theorem Ahead.wait (h : Ahead floats createdAt maxlen past w arrives lost es s) :
    Along (wiredStep floats createdAt maxlen) (fun m e => WiredInTurn m e ∧ WiredUnseen m e) {}
        (past ++ [e]) →
      Along (sessionStep maxlen) (fun m e => InTurn m e ∧ Unseen m e) {} es :=
  fun met => h.meets ((along_append _ _ _ _ _).mp met).1

theorem Ahead.disconnect (h : Ahead floats createdAt maxlen past w arrives lost es s) :
    ∃ es' s', run (sessionStep maxlen) {} es' = some s' ∧ s'.hub = w.hub ∧
      s'.seen = w.seen ++ arrives.map Publication.item ∧
      s'.page = (arrives.map Publication.item).foldl applyMessage w.page ∧ s'.stream = none ∧
      (Along (wiredStep floats createdAt maxlen) (fun m e => WiredInTurn m e ∧ WiredUnseen m e) {}
          past →
        Along (sessionStep maxlen) (fun m e => InTurn m e ∧ Unseen m e) {} es') := by
  refine ⟨es ++ [.disconnect], { s with stream := none },
    (run_concat _ _ _ _ _).mpr ⟨s, h.reached, rfl⟩, h.hub, h.seen, h.page, rfl, fun met => ?_⟩
  exact (along_append _ _ _ _ _).mpr ⟨h.meets met, fun _ _ => ⟨⟨trivial, trivial⟩,
    fun _ _ => trivial⟩⟩

theorem Ahead.hub_step (h : Ahead floats createdAt maxlen past w arrives lost es s)
    (reached : run (wiredStep floats createdAt maxlen) {} past = some w) {e : HubEvent} {hub : Hub}
    (elsewhere : w.connection.map (fun c => HubEvent.get c.queue) ≠ some e)
    (step : hubStep maxlen w.hub e = some hub) :
    ∃ es s, Ahead floats createdAt maxlen (past ++ [.hub e]) { w with hub } arrives lost es s := by
  have free : s.stream.map HubEvent.get ≠ some e := by
    rw [h.stream]
    split
    · rwa [Option.map_map]
    · simp
  have moved : sessionStep maxlen s (.hub e) = some { s with hub } := by
    rw [sessionStep, if_neg free, h.hub, step]
    rfl
  obtain ⟨ran, meets⟩ := h.follow (e := .hub e) reached moved fun allowed =>
    ⟨by rw [InTurn, h.hub]; exact allowed.1, trivial⟩
  exact ⟨_, _, ran, rfl, h.seen, h.page, h.stream, meets⟩

/-- The message sent now will come. -/
theorem Ahead.deliver (h : Ahead floats createdAt maxlen past w arrives [] es s)
    (reached : run (wiredStep floats createdAt maxlen) {} past = some w) {c : Connection}
    (reads : w.connection = some c) {x : Published} {rest : List Published}
    (waits : w.hub.waiting c.queue = x :: rest) {hub : Hub}
    (step : hubStep maxlen w.hub (.get c.queue) = some hub) (sent : List Char) :
    ∃ es s, Ahead floats createdAt maxlen (past ++ [.send])
      { w with hub, connection := some { c with sent } } (arrives ++ [x]) [] es s := by
  have stream : s.stream = some c.queue := by
    rw [h.stream, if_pos rfl, reads]
    rfl
  have moved : sessionStep maxlen s .deliver = some { s with
      hub, page := applyMessage s.page x.item, seen := s.seen ++ [x.item] } := by
    simp only [sessionStep, stream, h.hub, waits, step, Option.map_some]
  obtain ⟨ran, meets⟩ := h.follow (e := .send) reached moved fun _ => ⟨trivial, trivial⟩
  refine ⟨_, _, ran, rfl, ?_, ?_, ?_, meets⟩
  · simp only [h.seen, List.map_append, List.map_singleton, List.append_assoc]
  · simp only [h.page, List.map_append, List.map_singleton, List.foldl_append, List.foldl_cons,
      List.foldl_nil]
  · simp only [stream, if_true, Option.map_some]

/-- The message sent now will not come. -/
theorem Ahead.lose (h : Ahead floats createdAt maxlen past w arrives lost es s)
    {c : Connection} {x : Published} {hub : Hub}
    (step : hubStep maxlen w.hub (.get c.queue) = some hub) (sent : List Char) :
    ∃ es s, Ahead floats createdAt maxlen (past ++ [.send])
      { w with hub, connection := some { c with sent } } arrives (lost ++ [x]) es s := by
  obtain ⟨es', s', ran, same, seen, page, stream, meets⟩ := h.disconnect
  have moved : sessionStep maxlen s' (.hub (.get c.queue)) = some { s' with hub } := by
    rw [sessionStep, stream, same, step]
    rfl
  refine ⟨es' ++ [.hub (.get c.queue)], { s' with hub },
    (run_concat _ _ _ _ _).mpr ⟨s', ran, moved⟩, rfl, seen, page, ?_, fun met => ?_⟩
  · rw [if_neg (by simp)]
    exact stream
  · refine (along_append _ _ _ _ _).mpr ⟨meets ((along_append _ _ _ _ _).mp met).1, ?_⟩
    exact fun _ _ => ⟨⟨trivial, trivial⟩, fun _ _ => trivial⟩

theorem Simulated.step (h : Simulated floats createdAt maxlen past w)
    (stamps : ∀ x, floats.Exact (createdAt x)) (sends : Sends floats e)
    (reached : run (wiredStep floats createdAt maxlen) {} past = some w)
    (step : wiredStep floats createdAt maxlen w e = some w') :
    Simulated floats createdAt maxlen (past ++ [e]) w' := by
  obtain ⟨carries, flight, onWire, free', ahead⟩ := h
  cases wiredStep_cases step with
  | moved e hub elsewhere moved =>
    refine ⟨carries.step (fun publisher event order named => ?_) moved, flight, onWire, free', ?_⟩
    · subst named
      exact ⟨sends.1, sends.2, stamps _⟩
    · intro arrives lost split
      obtain ⟨es, s, before⟩ := ahead arrives lost split
      exact before.hub_step reached elsewhere moved
  | connected free hub joins =>
    have joined : hubStep maxlen w.hub .subscribe = some hub := by
      rw [hubStep, joins, Option.getD_some]
    refine ⟨carries.step (e := .subscribe) (by simp) joined, [], ?_, fun _ => rfl, ?_⟩
    · intro c reads
      cases reads
      exact InFlight.start _
    · intro arrives lost split
      obtain ⟨rfl, rfl⟩ := List.nil_eq_append_iff.mp split
      obtain ⟨es, s, before⟩ := ahead [] [] (free' free)
      have stream : s.stream = none := by
        rw [before.stream, if_pos rfl, free]
        rfl
      have page : s.page = w.page := before.page
      have moved : sessionStep maxlen s .connect =
          some { s with hub, stream := some w.hub.topic.count } := by
        simp only [sessionStep, stream, before.hub, joins]
        rfl
      obtain ⟨ran, meets⟩ := before.follow (e := .connect) reached moved fun allowed =>
        ⟨trivial, by rw [Unseen, before.hub, page]; exact allowed.2⟩
      exact ⟨_, _, ran, rfl, before.seen, before.page, by rw [if_pos rfl]; rfl, meets⟩
  | refused free full =>
    refine ⟨carries, flight, onWire, free', fun arrives lost split => ?_⟩
    obtain ⟨es, s, before⟩ := ahead arrives lost split
    exact ⟨es, s, before.reached, before.hub, before.seen, before.page, before.stream, before.wait⟩
  | sent c reads x rest waits hub moved =>
    have exact := carries.waiting (q := c.queue) (x := x) (by rw [waits]; exact List.mem_cons_self)
    refine ⟨carries.step (by simp) moved, flight ++ [x], ?_, by simp, ?_⟩
    · intro c' same
      cases same
      exact (onWire c reads).send exact
    · intro arrives lost split
      induction lost using List.reverseRecOn with
      | nil =>
        rw [List.append_nil] at split
        obtain ⟨es, s, before⟩ := ahead flight [] (List.append_nil flight).symm
        exact split ▸ before.deliver reached reads waits moved _
      | append_singleton lost y =>
        rw [← List.append_assoc] at split
        obtain ⟨same, last⟩ := List.append_inj' split rfl
        cases last
        obtain ⟨es, s, before⟩ := ahead arrives lost same
        exact before.lose moved _
  | received c reads character sent next =>
    rcases (onWire c reads).receive next with ⟨x, later, rfl, spoken, left⟩ | ⟨silent, left⟩
    · refine ⟨carries, later, ?_, by simp, fun arrives lost split => ?_⟩
      · intro c' same
        cases same
        exact left
      · obtain ⟨es, s, before⟩ := ahead (x :: arrives) lost (by rw [split, List.cons_append])
        refine ⟨es, s, before.reached, before.hub, ?_, ?_, ?_, before.wait⟩
        · rw [before.seen, spoken, List.map_cons, List.append_assoc, List.singleton_append]
        · rw [before.page, spoken]
          rfl
        · rw [before.stream, reads]
          rfl
    · refine ⟨carries, flight, ?_, by simp, fun arrives lost split => ?_⟩
      · intro c' same
        cases same
        exact left
      · obtain ⟨es, s, before⟩ := ahead arrives lost split
        refine ⟨es, s, before.reached, before.hub, ?_, ?_, ?_, before.wait⟩
        · rw [before.seen, silent, List.append_nil]
        · rw [before.page, silent]
          rfl
        · rw [before.stream, reads]
          rfl
  | disconnected =>
    refine ⟨carries, [], by simp, fun _ => rfl, fun arrives lost split => ?_⟩
    obtain ⟨rfl, rfl⟩ := List.nil_eq_append_iff.mp split
    obtain ⟨es, s, before⟩ := ahead [] flight rfl
    obtain ⟨ran, meets⟩ := before.follow (e := .disconnect) (f := .disconnect) reached rfl
      fun _ => ⟨trivial, trivial⟩
    exact ⟨_, _, ran, before.hub, before.seen, before.page, rfl, meets⟩

theorem Simulated.start (floats : Floats) (createdAt : Published → ℚ) (maxlen : ℕ) :
    Simulated floats createdAt maxlen [] {} := by
  refine ⟨Carries.start maxlen _, [], by simp, fun _ => rfl, fun arrives lost split => ?_⟩
  obtain ⟨rfl, rfl⟩ := List.nil_eq_append_iff.mp split
  exact ⟨[], {}, rfl, rfl, rfl, rfl, rfl, fun _ => trivial⟩

variable {labels : List WiredEvent}

theorem run_simulated (stamps : ∀ x, floats.Exact (createdAt x))
    (sends : ∀ e ∈ labels, Sends floats e)
    (reached : run (wiredStep floats createdAt maxlen) {} labels = some w) :
    Simulated floats createdAt maxlen labels w := by
  have both := run_history (wiredStep floats createdAt maxlen)
    (I := fun past m => run (wiredStep floats createdAt maxlen) {} past = some m ∧
      ((∀ e ∈ past, Sends floats e) → Simulated floats createdAt maxlen past m))
    ⟨rfl, fun _ => Simulated.start floats createdAt maxlen⟩
    (fun past m e m' before step => ⟨(run_concat _ _ _ _ _).mpr ⟨m, before.1, step⟩, fun sends =>
      (before.2 fun f member => sends f (List.mem_append_left _ member)).step stamps
        (sends e (by simp)) before.1 step⟩) reached
  exact both.2 sends

theorem Simulated.session (h : Simulated floats createdAt maxlen labels w) :
    ∃ es s, run (sessionStep maxlen) {} es = some s ∧ s.hub = w.hub ∧ s.page = w.page ∧
      s.seen = w.seen ∧
      (Along (wiredStep floats createdAt maxlen) (fun m e => WiredInTurn m e ∧ WiredUnseen m e) {}
          labels →
        Along (sessionStep maxlen) (fun m e => InTurn m e ∧ Unseen m e) {} es) := by
  obtain ⟨flight, _, _, ahead⟩ := h.flight
  obtain ⟨es, s, before⟩ := ahead [] flight rfl
  exact ⟨es, s, before.reached, before.hub, before.page, by simpa using before.seen, before.meets⟩

/-- With publishers in turn, and no connect that repeats a final, that run is a linked one. -/
theorem Simulated.linked (h : Simulated floats createdAt maxlen labels w)
    (meets : Along (wiredStep floats createdAt maxlen)
      (fun m e => WiredInTurn m e ∧ WiredUnseen m e) {} labels) :
    ∃ s, Linked maxlen s ∧ s.hub = w.hub ∧ s.page = w.page ∧ s.seen = w.seen := by
  obtain ⟨es, s, ran, hub, page, seen, transported⟩ := h.session
  have linked : Linked maxlen s := run_invariant_along (sessionStep maxlen) (Linked.start maxlen)
    (fun _ _ _ linked meets step => linked.step meets.1 meets.2 step) (transported meets) ran
  exact ⟨s, linked, hub, page, seen⟩

/-- A partial comes whole; of its final, the connection breaks off. -/
def brokenOff : List WiredEvent :=
  [.connect, .hub (.publish 0 (saying ['a'] 1 false) [0]), .hub (.put 0 false), .send] ++
    List.replicate 123 .receive ++
    [.hub (.publish 0 (saying ['a'] 1 true) [0]), .hub (.put 0 false), .send] ++
    List.replicate 70 .receive ++ [.disconnect, .hub (.unsubscribe 0)]

/-- Frames that come in pieces, and connections lost in the middle of one, add nothing: every
run is to the hub and to the page one in which whole messages are delivered or lost. -/
theorem wire_refines_session (stamps : ∀ x, floats.Exact (createdAt x))
    (sends : ∀ e ∈ labels, Sends floats e)
    (reached : run (wiredStep floats createdAt maxlen) {} labels = some w) :
    ∃ es s, run (sessionStep maxlen) {} es = some s ∧ s.hub = w.hub ∧ s.page = w.page ∧
      s.seen = w.seen :=
  let ⟨es, s, ran, hub, page, seen, _⟩ := (run_simulated stamps sends reached).session
  ⟨es, s, ran, hub, page, seen⟩

theorem brokenOff_is_session :
    ∃ w es s, run (wiredStep threeFloats (fun _ => 5 / 2) 1) {} brokenOff = some w ∧
      w.seen = [saying ['a'] 1 false] ∧ run (sessionStep 1) {} es = some s ∧ s.hub = w.hub ∧
      s.page = w.page ∧ s.seen = w.seen := by
  have ends : ((run (wiredStep threeFloats (fun _ => 5 / 2) 1) {} brokenOff).map Wired.seen) =
      some [saying ['a'] 1 false] := by decide +kernel
  obtain ⟨w, reached, seen⟩ := Option.map_eq_some_iff.mp ends
  obtain ⟨es, s, facts⟩ := wire_refines_session (fun _ => by decide +kernel)
    (by decide +kernel) reached
  exact ⟨w, es, s, reached, seen, facts⟩

end Simulation

end EdgeVoice.StreamSession
