import EdgeVoice.TranscriptHub

/-! The console page's feed. applyMessage() is the only writer: the first message of a segment
makes its bubble, placed by start time, and `liveBubbles` finds it again for the messages that
revise it, until the final. Scrolling, the wall-clock labels and the Clear button are left out. -/

namespace EdgeVoice.ConsolePage
open PythonText Models StepSystem Broadcast TranscriptHub

/-- `node` is the DOM element's identity, and `segmentId` the segment it was made for. -/
structure Bubble where
  node : ℕ
  segmentId : Str
  channelId : Str
  start : ℚ
  text : Str
  isPartial : Bool
deriving DecidableEq

structure Page where
  feed : List Bubble := []
  liveBubbles : Str → Option ℕ := fun _ => none
  nodes : ℕ := 0

def renderMessage (node : ℕ) (m : TranscriptEvent) : Bubble :=
  ⟨node, m.segmentId, m.channelId, m.start, m.text, !m.isFinal⟩

def insertByTimestamp (wrap : Bubble) : List Bubble → List Bubble
  | [] => [wrap]
  | b :: existing =>
    if b.start > wrap.start then wrap :: b :: existing
    else b :: insertByTimestamp wrap existing

namespace Bubble

/-- A later message rewrites the element it finds, in its place. -/
def revise (node : ℕ) (m : TranscriptEvent) (b : Bubble) : Bubble :=
  if b.node = node then { b with text := m.text, isPartial := !m.isFinal } else b

/-- What the reader sees of a bubble. -/
def look (b : Bubble) : Bubble := { b with node := 0 }

end Bubble

def applyMessage (page : Page) (m : TranscriptEvent) : Page :=
  match page.liveBubbles m.segmentId with
  | some node =>
    { page with
      feed := page.feed.map (Bubble.revise node m)
      liveBubbles := if m.isFinal then Function.update page.liveBubbles m.segmentId none
        else page.liveBubbles }
  | none =>
    { feed := insertByTimestamp (renderMessage page.nodes m) page.feed
      liveBubbles := if m.isFinal then page.liveBubbles
        else Function.update page.liveBubbles m.segmentId (some page.nodes)
      nodes := page.nodes + 1 }

/-- The page after the messages it got since it was loaded. -/
def load (messages : List TranscriptEvent) : Page := messages.foldl applyMessage {}

variable {page : Page} {m : TranscriptEvent} {b wrap : Bubble} {feed : List Bubble} {node : ℕ}

@[simp] theorem revise_node : (b.revise node m).node = b.node := by
  unfold Bubble.revise
  split
  · rfl
  · rfl

@[simp] theorem revise_segmentId : (b.revise node m).segmentId = b.segmentId := by
  unfold Bubble.revise
  split
  · rfl
  · rfl

@[simp] theorem revise_channelId : (b.revise node m).channelId = b.channelId := by
  unfold Bubble.revise
  split
  · rfl
  · rfl

@[simp] theorem revise_start : (b.revise node m).start = b.start := by
  unfold Bubble.revise
  split
  · rfl
  · rfl

theorem insertByTimestamp_perm (wrap : Bubble) (feed : List Bubble) :
    (insertByTimestamp wrap feed).Perm (wrap :: feed) := by
  induction feed with
  | nil => exact List.Perm.refl _
  | cons b existing ih =>
    rw [insertByTimestamp]
    split
    · exact List.Perm.refl _
    · exact (ih.cons b).trans (List.Perm.swap wrap b existing)

theorem mem_insertByTimestamp : b ∈ insertByTimestamp wrap feed ↔ b = wrap ∨ b ∈ feed := by
  rw [(insertByTimestamp_perm wrap feed).mem_iff, List.mem_cons]

/-- Insertion before the first bubble that starts later keeps the feed in spoken order. -/
theorem insertByTimestamp_sorted (sorted : feed.Pairwise fun x y => x.start ≤ y.start) :
    (insertByTimestamp wrap feed).Pairwise fun x y => x.start ≤ y.start := by
  induction feed with
  | nil => exact List.pairwise_singleton _ _
  | cons b existing ih =>
    obtain ⟨first, rest⟩ := List.pairwise_cons.mp sorted
    rw [insertByTimestamp]
    split
    · rename_i later
      refine List.pairwise_cons.mpr ⟨fun y member => ?_, sorted⟩
      rcases List.mem_cons.mp member with rfl | behind
      · exact le_of_lt later
      · exact le_trans (le_of_lt later) (first y behind)
    · rename_i notLater
      refine List.pairwise_cons.mpr ⟨fun y member => ?_, ih rest⟩
      rcases mem_insertByTimestamp.mp member with rfl | behind
      · exact not_lt.mp notLater
      · exact first y behind

/-- The map points to exactly the bubbles in progress. -/
structure Tidy (page : Page) : Prop where
  nodes : (page.feed.map Bubble.node).Nodup
  fresh : ∀ b ∈ page.feed, b.node < page.nodes
  tracked : ∀ id node, page.liveBubbles id = some node ↔
    ∃ b ∈ page.feed, b.node = node ∧ b.segmentId = id ∧ b.isPartial = true

theorem Tidy.start : Tidy {} := by
  refine ⟨List.nodup_nil, ?_, ?_⟩ <;> simp

theorem Tidy.same_node (tidy : Tidy page) {c : Bubble} (first : b ∈ page.feed)
    (second : c ∈ page.feed) (same : b.node = c.node) : b = c :=
  List.inj_on_of_nodup_map tidy.nodes first second same

theorem applyMessage_tracked (found : page.liveBubbles m.segmentId = some node) :
    applyMessage page m =
      { page with
        feed := page.feed.map (Bubble.revise node m)
        liveBubbles := if m.isFinal then Function.update page.liveBubbles m.segmentId none
          else page.liveBubbles } := by
  rw [applyMessage, found]

theorem applyMessage_new (absent : page.liveBubbles m.segmentId = none) :
    applyMessage page m =
      { feed := insertByTimestamp (renderMessage page.nodes m) page.feed
        liveBubbles := if m.isFinal then page.liveBubbles
          else Function.update page.liveBubbles m.segmentId (some page.nodes)
        nodes := page.nodes + 1 } := by
  rw [applyMessage, absent]

/-- A message that no live bubble is found for appends one. -/
theorem Tidy.append (tidy : Tidy page) (found : page.liveBubbles m.segmentId = none) :
    Tidy (applyMessage page m) := by
  rw [applyMessage_new found]
  have unused : ∀ b ∈ page.feed, b.node ≠ page.nodes := fun b member =>
    (tidy.fresh b member).ne
  refine ⟨?_, fun b member => ?_, fun id node => ?_⟩
  · rw [((insertByTimestamp_perm _ _).map Bubble.node).nodup_iff, List.map_cons,
      List.nodup_cons]
    refine ⟨fun member => ?_, tidy.nodes⟩
    obtain ⟨b, old, same⟩ := List.mem_map.mp member
    exact unused b old same
  · rcases mem_insertByTimestamp.mp member with rfl | old
    · exact Nat.lt_succ_self _
    · exact Nat.lt_succ_of_lt (tidy.fresh b old)
  · simp only [mem_insertByTimestamp, exists_eq_or_imp]
    rw [← tidy.tracked]
    by_cases final : m.isFinal = true
    · simp [renderMessage, final]
    · rw [if_neg final]
      by_cases own : id = m.segmentId
      · subst own
        rw [Function.update_self, found]
        simp [renderMessage, final, eq_comm]
      · rw [Function.update_of_ne own]
        simp [renderMessage, Ne.symm own]

/-- A message that finds its live bubble revises that bubble and no other. -/
theorem Tidy.revise (tidy : Tidy page) (found : page.liveBubbles m.segmentId = some node) :
    Tidy (applyMessage page m) := by
  rw [applyMessage_tracked found]
  obtain ⟨old, member, rfl, own, progress⟩ := (tidy.tracked m.segmentId node).mp found
  refine ⟨?_, fun b moved => ?_, fun id number => ?_⟩
  · rw [List.map_map]
    have same : Bubble.node ∘ Bubble.revise old.node m = Bubble.node := by
      funext b
      exact revise_node
    rw [same]
    exact tidy.nodes
  · obtain ⟨b, before, rfl⟩ := List.mem_map.mp moved
    rw [revise_node]
    exact tidy.fresh b before
  · simp only [List.mem_map, exists_exists_and_eq_and, revise_node, revise_segmentId]
    have other (b : Bubble) (before : b ∈ page.feed) (elsewhere : b ≠ old) :
        b.revise old.node m = b :=
      if_neg fun same => elsewhere (tidy.same_node before member same)
    have here : (old.revise old.node m).isPartial = !m.isFinal := by
      simp [Bubble.revise]
    have still (b : Bubble) (before : b ∈ page.feed) :
        (b.revise old.node m).isPartial = true ↔
          b.isPartial = true ∧ ¬(b = old ∧ m.isFinal = true) := by
      by_cases elsewhere : b = old
      · rw [elsewhere, here]
        simp [progress]
      · rw [other b before elsewhere]
        simp [elsewhere]
    by_cases final : m.isFinal = true
    · rw [if_pos final]
      by_cases mine : id = m.segmentId
      · subst mine
        rw [Function.update_self]
        refine iff_of_false (by simp) ?_
        rintro ⟨b, before, rfl, same, revised⟩
        obtain ⟨partly, away⟩ := (still b before).mp revised
        have tracked := (tidy.tracked m.segmentId b.node).mpr ⟨b, before, rfl, same, partly⟩
        rw [found, Option.some.injEq] at tracked
        exact away ⟨tidy.same_node before member tracked.symm, final⟩
      · rw [Function.update_of_ne mine, tidy.tracked]
        refine exists_congr fun b => and_congr_right fun before => and_congr_right fun _ =>
          and_congr_right fun same => ?_
        rw [still b before]
        refine (and_iff_left ?_).symm
        rintro ⟨rfl, _⟩
        exact mine (same.symm.trans own)
    · rw [if_neg final, tidy.tracked]
      refine exists_congr fun b => and_congr_right fun before => and_congr_right fun _ =>
        and_congr_right fun _ => ?_
      rw [still b before]
      exact (and_iff_left fun both => final both.2).symm

theorem Tidy.applyMessage (tidy : Tidy page) (m : TranscriptEvent) :
    Tidy (applyMessage page m) := by
  cases found : page.liveBubbles m.segmentId with
  | none => exact tidy.append found
  | some node => exact tidy.revise found

/-- A finalized bubble is never rewritten. -/
theorem finalized_stays (tidy : Tidy page) (member : b ∈ page.feed) (done : b.isPartial = false) :
    b ∈ (applyMessage page m).feed := by
  cases found : page.liveBubbles m.segmentId with
  | none =>
    rw [applyMessage_new found]
    exact mem_insertByTimestamp.mpr (Or.inr member)
  | some node =>
    rw [applyMessage_tracked found]
    obtain ⟨old, before, rfl, _, progress⟩ := (tidy.tracked m.segmentId node).mp found
    refine List.mem_map.mpr ⟨b, member, if_neg fun same => ?_⟩
    rw [tidy.same_node member before same, progress] at done
    cases done

section Feed

variable {messages : List TranscriptEvent}

/-- No message of a segment comes after its final. -/
def FinalLast (messages : List TranscriptEvent) : Prop :=
  messages.Pairwise fun x y => x.segmentId = y.segmentId → x.isFinal = false

/-- One bubble a segment, placed by the segment's first message and filled by its latest. -/
structure Shows (messages : List TranscriptEvent) (page : Page) : Prop where
  tidy : Tidy page
  sorted : page.feed.Pairwise fun x y => x.start ≤ y.start
  once : (page.feed.map Bubble.segmentId).Nodup
  source : ∀ b ∈ page.feed, ∃ first ∈ messages, ∃ last ∈ messages,
    first.segmentId = b.segmentId ∧ first.channelId = b.channelId ∧ first.start = b.start ∧
      last.segmentId = b.segmentId ∧ last.text = b.text ∧ last.isFinal = !b.isPartial
  shown : ∀ m ∈ messages, ∃ b ∈ page.feed, b.segmentId = m.segmentId ∧
    (m.isFinal = true → b.isPartial = false)

theorem Shows.start : Shows [] {} := by
  refine ⟨Tidy.start, List.Pairwise.nil, List.nodup_nil, ?_, ?_⟩ <;> simp

theorem Shows.same_segment (shows : Shows messages page) {c : Bubble} (first : b ∈ page.feed)
    (second : c ∈ page.feed) (same : b.segmentId = c.segmentId) : b = c :=
  List.inj_on_of_nodup_map shows.once first second same

theorem Shows.step (shows : Shows messages page)
    (last : ∀ x ∈ messages, x.segmentId = m.segmentId → x.isFinal = false) :
    Shows (messages ++ [m]) (applyMessage page m) := by
  have tidy := shows.tidy.applyMessage m
  have now : m ∈ messages ++ [m] := by simp
  have earlier {x : TranscriptEvent} (old : x ∈ messages) : x ∈ messages ++ [m] :=
    List.mem_append_left _ old
  have progress (b : Bubble) (member : b ∈ page.feed) (own : b.segmentId = m.segmentId) :
      b.isPartial = true := by
    obtain ⟨_, _, x, old, _, _, _, same, _, state⟩ := shows.source b member
    rw [last x old (same.trans own)] at state
    simpa using state
  cases found : page.liveBubbles m.segmentId with
  | none =>
    have unseen (b : Bubble) (member : b ∈ page.feed) : b.segmentId ≠ m.segmentId := by
      intro own
      have tracked := (shows.tidy.tracked m.segmentId b.node).mpr
        ⟨b, member, rfl, own, progress b member own⟩
      rw [found] at tracked
      cases tracked
    rw [applyMessage_new found] at tidy ⊢
    refine ⟨tidy, insertByTimestamp_sorted shows.sorted, ?_, fun b member => ?_,
      fun x member => ?_⟩
    · rw [((insertByTimestamp_perm _ _).map Bubble.segmentId).nodup_iff, List.map_cons,
        List.nodup_cons]
      refine ⟨fun member => ?_, shows.once⟩
      obtain ⟨b, old, same⟩ := List.mem_map.mp member
      exact unseen b old same
    · rcases mem_insertByTimestamp.mp member with rfl | old
      · exact ⟨m, now, m, now, rfl, rfl, rfl, rfl, rfl, by simp [renderMessage]⟩
      · obtain ⟨first, one, latest, two, facts⟩ := shows.source b old
        exact ⟨first, earlier one, latest, earlier two, facts⟩
    · rcases List.mem_append.mp member with old | new
      · obtain ⟨b, before, facts⟩ := shows.shown x old
        exact ⟨b, mem_insertByTimestamp.mpr (Or.inr before), facts⟩
      · rw [List.mem_singleton.mp new]
        exact ⟨_, mem_insertByTimestamp.mpr (Or.inl rfl), rfl, by simp [renderMessage]⟩
  | some node =>
    obtain ⟨target, member, rfl, own, _⟩ := (shows.tidy.tracked m.segmentId node).mp found
    rw [applyMessage_tracked found] at tidy ⊢
    have other (b : Bubble) (before : b ∈ page.feed) (elsewhere : b ≠ target) :
        b.revise target.node m = b :=
      if_neg fun same => elsewhere (shows.tidy.same_node before member same)
    refine ⟨tidy, ?_, ?_, fun b moved => ?_, fun x mentioned => ?_⟩
    · rw [List.pairwise_map]
      simpa only [revise_start] using shows.sorted
    · rw [List.map_map]
      have same : Bubble.segmentId ∘ Bubble.revise target.node m = Bubble.segmentId := by
        funext b
        exact revise_segmentId
      rw [same]
      exact shows.once
    · obtain ⟨b, before, rfl⟩ := List.mem_map.mp moved
      obtain ⟨first, one, latest, two, id, channel, start, facts⟩ := shows.source b before
      by_cases elsewhere : b = target
      · subst elsewhere
        exact ⟨first, earlier one, m, now, by rw [id, revise_segmentId],
          by rw [channel, revise_channelId], by rw [start, revise_start],
          by rw [revise_segmentId, own], by simp [Bubble.revise], by simp [Bubble.revise]⟩
      · rw [other b before elsewhere]
        exact ⟨first, earlier one, latest, earlier two, id, channel, start, facts⟩
    · rcases List.mem_append.mp mentioned with old | new
      · obtain ⟨b, before, id, state⟩ := shows.shown x old
        refine ⟨b.revise target.node m, List.mem_map.mpr ⟨b, before, rfl⟩, ?_, fun final => ?_⟩
        · rw [revise_segmentId, id]
        · by_cases elsewhere : b = target
          · have silent := last x old (by rw [← id, elsewhere, own])
            rw [final] at silent
            cases silent
          · rw [other b before elsewhere]
            exact state final
      · rw [List.mem_singleton.mp new]
        exact ⟨target.revise target.node m, List.mem_map.mpr ⟨target, member, rfl⟩,
          by rw [revise_segmentId, own], fun final => by simp [Bubble.revise, final]⟩

theorem load_concat (messages : List TranscriptEvent) (m : TranscriptEvent) :
    load (messages ++ [m]) = applyMessage (load messages) m := by
  rw [load, List.foldl_append]
  rfl

theorem FinalLast.concat (order : FinalLast (messages ++ [m])) :
    FinalLast messages ∧ ∀ x ∈ messages, x.segmentId = m.segmentId → x.isFinal = false := by
  obtain ⟨before, _, last⟩ := List.pairwise_append.mp order
  exact ⟨before, fun x member => last x member m (List.mem_singleton_self m)⟩

theorem load_shows (order : FinalLast messages) : Shows messages (load messages) := by
  induction messages using List.reverseRecOn with
  | nil => exact Shows.start
  | append_singleton messages m ih =>
    obtain ⟨before, last⟩ := order.concat
    rw [load_concat]
    exact (ih before).step last

/-- Every message in progress is followed by the final of its segment, with its start. -/
def Settled : List TranscriptEvent → Prop
  | [] => True
  | m :: after => (m.isFinal = false →
      ∃ f ∈ after, f.isFinal = true ∧ f.segmentId = m.segmentId ∧ f.start = m.start) ∧
    Settled after

def decideSettled : (messages : List TranscriptEvent) → Decidable (Settled messages)
  | [] => isTrue trivial
  | m :: after =>
    have := decideSettled after
    inferInstanceAs (Decidable ((m.isFinal = false →
      ∃ f ∈ after, f.isFinal = true ∧ f.segmentId = m.segmentId ∧ f.start = m.start) ∧
        Settled after))

instance (messages : List TranscriptEvent) : Decidable (Settled messages) :=
  decideSettled messages

theorem Settled.final (settled : Settled messages) (member : m ∈ messages) :
    ∃ f ∈ messages, f.isFinal = true ∧ f.segmentId = m.segmentId ∧ f.start = m.start := by
  induction messages with
  | nil => cases member
  | cons x after ih =>
    obtain ⟨first, rest⟩ := settled
    rcases List.mem_cons.mp member with rfl | later
    · by_cases final : m.isFinal = true
      · exact ⟨m, member, final, rfl, rfl⟩
      · obtain ⟨f, behind, facts⟩ := first (by simpa using final)
        exact ⟨f, List.mem_cons_of_mem _ behind, facts⟩
    · obtain ⟨f, behind, facts⟩ := ih rest later
      exact ⟨f, List.mem_cons_of_mem _ behind, facts⟩

theorem Settled.of_finals (finals : ∀ m ∈ messages, m.isFinal = true) : Settled messages := by
  induction messages with
  | nil => trivial
  | cons m after ih =>
    refine ⟨fun progress => ?_, ih fun x member => finals x (List.mem_cons_of_mem _ member)⟩
    rw [finals m List.mem_cons_self] at progress
    cases progress

/-- With one final a segment, the settled messages end with it. -/
theorem Settled.finalLast (settled : Settled messages)
    (ids : ((messages.filter fun m => m.isFinal).map TranscriptEvent.segmentId).Nodup) :
    FinalLast messages := by
  induction messages with
  | nil => exact List.Pairwise.nil
  | cons m after ih =>
    have rest : ((after.filter fun m => m.isFinal).map TranscriptEvent.segmentId).Nodup :=
      ids.sublist (((List.sublist_cons_self m after).filter _).map _)
    refine List.pairwise_cons.mpr ⟨fun x member same => ?_, ih settled.2 rest⟩
    by_contra final
    rw [Bool.not_eq_false] at final
    obtain ⟨f, behind, done, own, _⟩ := settled.2.final member
    rw [List.filter_cons_of_pos final, List.map_cons, List.nodup_cons] at ids
    exact ids.1 (List.mem_map.mpr ⟨f, List.mem_filter.mpr ⟨behind, done⟩, by rw [own, same]⟩)

section Compared

variable {β : Type*} {g : Bubble → β} (r : TranscriptEvent → β) (key : β → Str)

/-- The bubbles left at the end are those of the finals. -/
theorem feed_perm (settled : Settled messages)
    (ids : ((messages.filter fun m => m.isFinal).map TranscriptEvent.segmentId).Nodup)
    (keyed : ∀ b, key (g b) = b.segmentId) (keyed' : ∀ f, key (r f) = f.segmentId)
    (agree : ∀ b ∈ (load messages).feed, ∀ f ∈ messages, f.isFinal = true →
      f.segmentId = b.segmentId → g b = r f) :
    ((load messages).feed.map g).Perm ((messages.filter fun m => m.isFinal).map r) := by
  have shows := load_shows (settled.finalLast ids)
  have left : ((load messages).feed.map g).Nodup := by
    refine List.Nodup.of_map key ?_
    rw [List.map_map, show key ∘ g = Bubble.segmentId from funext keyed]
    exact shows.once
  have right : ((messages.filter fun m => m.isFinal).map r).Nodup := by
    refine List.Nodup.of_map key ?_
    rw [List.map_map, show key ∘ r = TranscriptEvent.segmentId from funext keyed']
    exact ids
  refine (List.perm_ext_iff_of_nodup left right).mpr fun x => ?_
  simp only [List.mem_map, List.mem_filter]
  constructor
  · rintro ⟨b, member, rfl⟩
    obtain ⟨first, one, _, _, own, _⟩ := shows.source b member
    obtain ⟨f, behind, final, same, _⟩ := settled.final one
    exact ⟨f, ⟨behind, final⟩, (agree b member f behind final (same.trans own)).symm⟩
  · rintro ⟨f, ⟨behind, final⟩, rfl⟩
    obtain ⟨b, member, own, _⟩ := shows.shown f behind
    exact ⟨b, member, agree b member f behind final own.symm⟩

/-- What each bubble shows at the end, its channel apart, is what its final says. -/
theorem settled_source (settled : Settled messages)
    (ids : ((messages.filter fun m => m.isFinal).map TranscriptEvent.segmentId).Nodup)
    (member : b ∈ (load messages).feed) {f : TranscriptEvent} (mentioned : f ∈ messages)
    (final : f.isFinal = true) (own : f.segmentId = b.segmentId) :
    b.start = f.start ∧ b.text = f.text ∧ b.isPartial = false ∧
      ∃ first ∈ messages, first.segmentId = f.segmentId ∧ first.channelId = b.channelId := by
  have shows := load_shows (settled.finalLast ids)
  have only (x : TranscriptEvent) (there : x ∈ messages) (done : x.isFinal = true)
      (same : x.segmentId = b.segmentId) : x = f :=
    List.inj_on_of_nodup_map ids (List.mem_filter.mpr ⟨there, done⟩)
      (List.mem_filter.mpr ⟨mentioned, final⟩) (same.trans own.symm)
  obtain ⟨first, one, last, two, id, channel, start, id', text, state⟩ := shows.source b member
  obtain ⟨c, shown, id'', closed⟩ := shows.shown f mentioned
  have same : c = b := shows.same_segment shown member (id''.trans own)
  subst same
  have done : last.isFinal = true := by rw [state, closed final]; rfl
  obtain ⟨f', behind, final', same, begins⟩ := settled.final one
  rw [only f' behind final' (same.trans id)] at begins
  rw [only last two done id'] at text
  exact ⟨start.symm.trans begins.symm, text.symm, closed final, first, one, id.trans own.symm,
    channel⟩

/-- Two pages that got the same finals, spoken at different times, show them alike. -/
theorem feeds_agree {messages' : List TranscriptEvent} (time : β → ℚ) (settled : Settled messages)
    (settled' : Settled messages')
    (same : (messages.filter fun m => m.isFinal).Perm (messages'.filter fun m => m.isFinal))
    (ids : ((messages.filter fun m => m.isFinal).map TranscriptEvent.segmentId).Nodup)
    (starts : ((messages.filter fun m => m.isFinal).map TranscriptEvent.start).Nodup)
    (keyed : ∀ b, key (g b) = b.segmentId) (keyed' : ∀ f, key (r f) = f.segmentId)
    (timed : ∀ b, time (g b) = b.start) (timed' : ∀ f, time (r f) = f.start)
    (agree : ∀ b ∈ (load messages).feed, ∀ f ∈ messages, f.isFinal = true →
      f.segmentId = b.segmentId → g b = r f)
    (agree' : ∀ b ∈ (load messages').feed, ∀ f ∈ messages', f.isFinal = true →
      f.segmentId = b.segmentId → g b = r f) :
    (load messages).feed.map g = (load messages').feed.map g := by
  have ids' := ((same.map TranscriptEvent.segmentId).nodup_iff).mp ids
  have left := feed_perm r key settled ids keyed keyed' agree
  have right := feed_perm r key settled' ids' keyed keyed' agree'
  have sorted {ms : List TranscriptEvent} (shows : Shows ms (load ms)) :
      ((load ms).feed.map g).Pairwise fun x y => time x ≤ time y := by
    rw [List.pairwise_map]
    simpa only [timed] using shows.sorted
  refine List.Perm.eq_of_pairwise (fun x y first second below above => ?_)
    (sorted (load_shows (settled.finalLast ids))) (sorted (load_shows (settled'.finalLast ids')))
    (left.trans ((same.map r).trans right.symm))
  obtain ⟨f, one, rfl⟩ := List.mem_map.mp (left.mem_iff.mp first)
  obtain ⟨f', two, rfl⟩ := List.mem_map.mp (right.mem_iff.mp second)
  have begins : f.start = f'.start := by
    rw [← timed', ← timed']
    exact le_antisymm below above
  rw [List.inj_on_of_nodup_map starts one (same.mem_iff.mpr two) begins]

end Compared

/-- A backlog that nothing was dropped from replays every final, and nothing else. -/
theorem replay_finals {maxlen : ℕ} {past : List HubEvent} {hub : Hub}
    (reached : run (hubStep maxlen) {} past = some hub) (fits : hub.finals.length ≤ maxlen) :
    (hub.replay.map Publication.item).Perm (hub.finals.map Publication.item) ∧
      ∀ m ∈ hub.replay.map Publication.item, m.isFinal = true := by
  have kept := run_kept reached
  have whole : hub.backlog = hub.finals := by
    rw [kept.backlog, List.rtake, Nat.sub_eq_zero_of_le fits, List.drop_zero]
  refine ⟨(whole ▸ replay_perm hub).map Publication.item, ?_⟩
  intro m member
  obtain ⟨x, seeded, rfl⟩ := List.mem_map.mp member
  have backlogged := (replay_perm hub).mem_iff.mp seeded
  exact (List.mem_filter.mp (kept.backlog_finals.subset backlogged)).2

/-- A page that was open all along and one that is loaded afterwards show the same
conversation: in the same order, and in the same words where the messages in progress carry
their final's channel. -/
theorem live_feed_is_replay {maxlen : ℕ} {past : List HubEvent} {hub : Hub}
    (reached : run (hubStep maxlen) {} past = some hub) (fits : hub.finals.length ≤ maxlen)
    (ids : (hub.finals.map fun x => x.item.segmentId).Nodup)
    (starts : (hub.finals.map fun x => x.item.start).Nodup)
    (received : (messages.filter fun m => m.isFinal).Perm (hub.finals.map Publication.item))
    (settled : Settled messages) :
    (∀ seen, seen <+: messages → (load seen).feed.Pairwise fun x y => x.start ≤ y.start) ∧
    (load messages).feed.map (fun b => (b.segmentId, b.start)) =
      (load (hub.replay.map Publication.item)).feed.map (fun b => (b.segmentId, b.start)) ∧
    ((∀ m ∈ messages, m.isFinal = false → ∀ f ∈ messages, f.isFinal = true →
        f.segmentId = m.segmentId → f.channelId = m.channelId) →
      (load messages).feed.map Bubble.look =
        (load (hub.replay.map Publication.item)).feed.map Bubble.look) := by
  obtain ⟨replayed, final⟩ := replay_finals reached fits
  have same : (messages.filter fun m => m.isFinal).Perm
      ((hub.replay.map Publication.item).filter fun m => m.isFinal) := by
    rw [List.filter_eq_self.mpr final]
    exact received.trans replayed.symm
  have ids' : ((messages.filter fun m => m.isFinal).map TranscriptEvent.segmentId).Nodup := by
    rw [(received.map TranscriptEvent.segmentId).nodup_iff, List.map_map]
    exact ids
  have starts' : ((messages.filter fun m => m.isFinal).map TranscriptEvent.start).Nodup := by
    rw [(received.map TranscriptEvent.start).nodup_iff, List.map_map]
    exact starts
  have settled' := Settled.of_finals final
  have replayIds := ((same.map TranscriptEvent.segmentId).nodup_iff).mp ids'
  refine ⟨fun seen early => ?_, ?_, fun channels => ?_⟩
  · exact (load_shows ((settled.finalLast ids').sublist early.sublist)).sorted
  · refine feeds_agree (fun f => (f.segmentId, f.start)) Prod.fst Prod.snd settled settled' same
      ids' starts' (fun _ => rfl) (fun _ => rfl) (fun _ => rfl) (fun _ => rfl)
      (fun b member f there done own => ?_) (fun b member f there done own => ?_)
    · rw [← own, (settled_source settled ids' member there done own).1]
    · rw [← own, (settled_source settled' replayIds member there done own).1]
  · have looks (b : Bubble) (f : TranscriptEvent) (own : f.segmentId = b.segmentId)
        (channel : b.channelId = f.channelId) (start : b.start = f.start) (text : b.text = f.text)
        (closed : b.isPartial = false) (done : f.isFinal = true) :
        b.look = renderMessage 0 f := by
      simp [Bubble.look, renderMessage, own, channel, start, text, closed, done]
    refine feeds_agree (renderMessage 0) Bubble.segmentId Bubble.start settled settled' same ids'
      starts' (fun _ => rfl) (fun _ => rfl) (fun _ => rfl) (fun _ => rfl)
      (fun b member f there done own => ?_) (fun b member f there done own => ?_)
    · obtain ⟨start, text, closed, first, one, id, channel⟩ :=
        settled_source settled ids' member there done own
      refine looks b f own ?_ start text closed done
      rw [← channel]
      by_cases progress : first.isFinal = true
      · rw [List.inj_on_of_nodup_map ids' (List.mem_filter.mpr ⟨one, progress⟩)
          (List.mem_filter.mpr ⟨there, done⟩) id]
      · exact (channels first one (by simpa using progress) f there done id.symm).symm
    · obtain ⟨start, text, closed, first, one, id, channel⟩ :=
        settled_source settled' replayIds member there done own
      refine looks b f own ?_ start text closed done
      rw [← channel, List.inj_on_of_nodup_map replayIds
        (List.mem_filter.mpr ⟨one, final first one⟩) (List.mem_filter.mpr ⟨there, done⟩) id]

theorem overtaken_feed_is_replay :
    ∃ hub : Hub, run (hubStep 2) {} [.publish 1 (saying ['b'] 2 true) [],
        .publish 0 (saying ['a'] 1 true) []] = some hub ∧
      (load [saying ['a'] 1 false, saying ['b'] 2 true, saying ['a'] 1 true]).feed.map
          Bubble.look =
        (load (hub.replay.map Publication.item)).feed.map Bubble.look := by
  refine ⟨_, rfl, (@live_feed_is_replay _ 2 [.publish 1 (saying ['b'] 2 true) [],
    .publish 0 (saying ['a'] 1 true) []] _ rfl ?_ ?_ ?_ ?_ ?_).2.2 ?_⟩
  · decide
  · decide
  · decide +kernel
  · decide +kernel
  · decide +kernel
  · decide

end Feed

end EdgeVoice.ConsolePage
