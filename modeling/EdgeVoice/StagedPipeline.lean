import EdgeVoice.PolledMailbox

/-! Polling stages that feed each other, and a shutdown that signals them one by one,
each after the one before has returned. A stage tests its stop flag, gets with a
timeout, handles, and tests again; on its way out it may still emit. Nothing is said
about what the stages compute. A stage that lives in a child process is flagged by a
bridge there, some time after its signal. -/

namespace EdgeVoice.StagedPipeline
open StepSystem PolledMailbox

/-- The stages: what they read and remember, who feeds them, what they emit on an item,
on an idle check and on their way out, and the order in which they are stopped. -/
structure Design (ι : Type) where
  Item : ι → Type
  State : ι → Type
  producer : ι → Option ι
  order : List ι
  maxsize : ι → ℕ
  process : ι → Bool
  handle (i : ι) : State i → Item i → ℚ →
    State i × List (Σ j : {j // producer j = some i}, Item j.1)
  idle (i : ι) : State i → ℚ → State i × List (Σ j : {j // producer j = some i}, Item j.1)
  close (i : ι) : State i → State i × List (Σ j : {j // producer j = some i}, Item j.1)
  upstream : ∀ before i after, order = before ++ i :: after → ∀ k, producer i = some k → k ∈ before

variable {ι : Type}

/-- What a stage emits: an item for one of the stages it feeds. -/
abbrev Design.Output (d : Design ι) (i : ι) : Type := Σ j : {j // d.producer j = some i}, d.Item j.1

inductive LoopAt
  | testing
  | getting
  | handling
  | idling
  | closing
  | done
deriving DecidableEq

/-- `pending` is what the stage has still to put before it goes on. -/
structure Stage (d : Design ι) (i : ι) where
  state : d.State i
  box : Mailbox (d.Item i) := {}
  loop : LoopAt := .testing
  pending : List (d.Output i) := []
  stopping : Bool := false

/-- The stages and the progress of the shutdown: whether the outside source is done,
and the stages not yet joined, of which the first may have been signalled. -/
structure Pipeline (d : Design ι) where
  stage : (i : ι) → Stage d i
  sourceDone : Bool := false
  toStop : List ι
  signalled : Bool := false

inductive LoopEvent
  | test
  | get (now : ℚ)
  | expire (now : ℚ)
  | handled (now : ℚ)
  | resume
  | leave
  | transfer
deriving DecidableEq

inductive Event (d : Design ι)
  | arrive (i : ι) (item : d.Item i)
  | loop (i : ι) (event : LoopEvent)
  | deliver (i : ι)
  | sourceReturns
  | signal
  | bridge (i : ι)
  | joined

variable {d : Design ι}

/-- A step of a stage's own loop. The idle check runs after an item and after a timeout. -/
def loopStep {i : ι} (s : Stage d i) : LoopEvent → Option (Stage d i)
  | .test =>
    if s.loop = .testing then
      if s.stopping then
        let closed := d.close i s.state
        some { s with state := closed.1, pending := closed.2, loop := .closing }
      else some { s with loop := .getting }
    else none
  | .get now =>
    if s.loop = .getting then
      s.box.take.map fun got =>
        let answer := d.handle i s.state got.1 now
        { s with state := answer.1, pending := answer.2, box := got.2, loop := .handling }
    else none
  | .expire now =>
    if s.loop = .getting ∧ s.box.ready = [] then
      let checked := d.idle i s.state now
      some { s with state := checked.1, pending := checked.2, loop := .idling }
    else none
  | .handled now =>
    if s.loop = .handling ∧ s.pending = [] then
      let checked := d.idle i s.state now
      some { s with state := checked.1, pending := checked.2, loop := .idling }
    else none
  | .resume =>
    if s.loop = .idling ∧ s.pending = [] then some { s with loop := .testing } else none
  | .leave =>
    if s.loop = .closing ∧ s.pending = [] then some { s with loop := .done } else none
  | .transfer => s.box.transfer.map fun box => { s with box := box }

/-- `Queue.full()`; a `maxsize` of zero is no bound. -/
def isFull (s : Stage d i) : Prop := 0 < d.maxsize i ∧ d.maxsize i ≤ s.box.unread.length

instance (s : Stage d i) : Decidable (isFull s) := by
  unfold isFull
  infer_instance

/-- A put that is admitted, or given up on a full queue. -/
def Stage.offer {i : ι} (s : Stage d i) (item : d.Item i) : Stage d i :=
  if isFull s then s else { s with box := s.box.send (d.process i) item }

/-- A stage keeps its items in order, has nothing to put once it has returned, and
returns only when flagged. -/
structure Orderly {i : ι} (s : Stage d i) : Prop where
  conserves : s.box.Conserves
  direct : d.process i = false → s.box.feeder = []
  silent : s.loop = .done → s.pending = []
  flagged : s.loop = .closing ∨ s.loop = .done → s.stopping = true

theorem Orderly.offer {i : ι} {s : Stage d i} (h : Orderly s) (item : d.Item i) :
    Orderly (s.offer item) := by
  unfold Stage.offer
  split
  · exact h
  · refine ⟨h.conserves.send h.direct, fun inline => ?_, h.silent, h.flagged⟩
    simpa [Mailbox.send, inline] using h.direct inline

theorem Orderly.loopStep {i : ι} {s s' : Stage d i} {event : LoopEvent} (h : Orderly s)
    (next : loopStep s event = some s') : Orderly s' := by
  obtain ⟨conserves, direct, silent, flagged⟩ := h
  cases event with
  | test =>
    simp only [StagedPipeline.loopStep] at next
    split at next
    · split at next <;> cases next
      · rename_i stopping
        exact ⟨conserves, direct, by simp, fun _ => stopping⟩
      · exact ⟨conserves, direct, by simp, by simp⟩
    · cases next
  | get now =>
    simp only [StagedPipeline.loopStep] at next
    split at next
    · simp only [Option.map_eq_some_iff] at next
      obtain ⟨⟨item, box⟩, got, rfl⟩ := next
      refine ⟨conserves.take got, fun inline => ?_, by simp, by simp⟩
      rw [(Mailbox.take_unread got).2.2.2]
      exact direct inline
    · cases next
  | expire now =>
    simp only [StagedPipeline.loopStep] at next
    split at next <;> cases next
    exact ⟨conserves, direct, by simp, by simp⟩
  | handled now =>
    simp only [StagedPipeline.loopStep] at next
    split at next <;> cases next
    exact ⟨conserves, direct, by simp, by simp⟩
  | resume =>
    simp only [StagedPipeline.loopStep] at next
    split at next <;> cases next
    exact ⟨conserves, direct, by simp, by simp⟩
  | leave =>
    simp only [StagedPipeline.loopStep] at next
    split at next <;> cases next
    rename_i closing
    exact ⟨conserves, direct, fun _ => closing.2, fun _ => flagged (Or.inl closing.1)⟩
  | transfer =>
    simp only [StagedPipeline.loopStep, Option.map_eq_some_iff] at next
    obtain ⟨box, moved, rfl⟩ := next
    refine ⟨conserves.transfer moved, fun inline => ?_, silent, flagged⟩
    simp [Mailbox.transfer, direct inline] at moved

/-- What a stage's own step does to the items left for it once it is flagged. -/
theorem loopStep_settled {i : ι} {s s' : Stage d i} {event : LoopEvent} (h : Orderly s)
    (stopping : s.stopping = true) (next : loopStep s event = some s') :
    s'.stopping = true ∧
      (s.box.Settled (s.loop = .getting) → s'.box.Settled (s'.loop = .getting)) ∧
      (d.process i = false →
        s'.box.Settled (s'.loop = .getting) → s.box.Settled (s.loop = .getting)) := by
  cases event with
  | test =>
    simp only [loopStep] at next
    split at next
    · rename_i testing
      cases next
      refine ⟨stopping, fun settled => ?_, fun _ settled => ?_⟩
      · rw [Mailbox.settled_outside (by simp [testing])] at settled
        exact Or.inl settled
      · rw [Mailbox.settled_outside (by simp)] at settled
        exact Or.inl settled
    · cases next
  | get now =>
    simp only [loopStep] at next
    split at next
    · rename_i getting
      simp only [Option.map_eq_some_iff] at next
      obtain ⟨⟨item, box⟩, got, rfl⟩ := next
      refine ⟨stopping, fun settled => Or.inl (settled.take got), fun inline settled => ?_⟩
      rw [Mailbox.settled_outside (by simp)] at settled
      exact (Mailbox.settled_take_iff (h.direct inline) getting got).mp settled
    · cases next
  | expire now =>
    simp only [loopStep] at next
    split at next <;> cases next
    rename_i empty
    refine ⟨stopping, fun settled => Or.inl (settled.expire empty.2), fun inline _ => ?_⟩
    exact Or.inl (by simp [Mailbox.unread, empty.2, h.direct inline])
  | handled now =>
    simp only [loopStep] at next
    split at next <;> cases next
    rename_i handled
    exact ⟨stopping, by simp [handled.1, Mailbox.settled_outside], by
      simp [handled.1, Mailbox.settled_outside]⟩
  | resume =>
    simp only [loopStep] at next
    split at next <;> cases next
    rename_i idling
    exact ⟨stopping, by simp [idling.1, Mailbox.settled_outside], by
      simp [idling.1, Mailbox.settled_outside]⟩
  | leave =>
    simp only [loopStep] at next
    split at next <;> cases next
    rename_i closing
    exact ⟨stopping, by simp [closing.1, Mailbox.settled_outside], by
      simp [closing.1, Mailbox.settled_outside]⟩
  | transfer =>
    simp only [loopStep, Option.map_eq_some_iff] at next
    obtain ⟨box, moved, rfl⟩ := next
    refine ⟨stopping, fun settled => settled.transfer moved, fun inline => ?_⟩
    simp [Mailbox.transfer, h.direct inline] at moved

/-- A stage that has returned does nothing more of its own. -/
theorem loopStep_done {i : ι} {s s' : Stage d i} {event : LoopEvent}
    (done : s.loop = .done) (next : loopStep s event = some s') : s'.loop = .done := by
  cases event with
  | transfer =>
    simp only [loopStep, Option.map_eq_some_iff] at next
    obtain ⟨box, _, rfl⟩ := next
    exact done
  | _ => simp [loopStep, done] at next

@[simp] theorem offer_loop {i : ι} (s : Stage d i) (item : d.Item i) :
    (s.offer item).loop = s.loop := by
  unfold Stage.offer
  split <;> rfl

@[simp] theorem offer_stopping {i : ι} (s : Stage d i) (item : d.Item i) :
    (s.offer item).stopping = s.stopping := by
  unfold Stage.offer
  split <;> rfl

theorem loopStep_stopping {i : ι} {s s' : Stage d i} {event : LoopEvent}
    (next : loopStep s event = some s') : s'.stopping = s.stopping := by
  cases event <;> simp only [loopStep, Option.map_eq_some_iff] at next
  · split at next
    · split at next <;> cases next <;> rfl
    · cases next
  · split at next
    · simp only [Option.map_eq_some_iff] at next
      obtain ⟨got, _, rfl⟩ := next
      rfl
    · cases next
  all_goals first
    | (split at next <;> cases next; rfl)
    | (obtain ⟨box, _, rfl⟩ := next; rfl)

theorem Orderly.emitted {i : ι} {s : Stage d i} (h : Orderly s) {rest : List (d.Output i)}
    (fewer : rest <:+ s.pending) : Orderly { s with pending := rest } := by
  refine ⟨h.conserves, h.direct, fun done => ?_, h.flagged⟩
  have silent := h.silent done
  rw [silent] at fewer
  exact List.suffix_nil.mp fewer

/-- Nothing has started yet, and nothing is being stopped. -/
def start (d : Design ι) (state : (i : ι) → d.State i) : Pipeline d :=
  { stage := fun i => { state := state i }, toStop := d.order }

/-- Whoever feeds the stage has returned. -/
def ProducerDone (p : Pipeline d) (i : ι) : Prop :=
  match d.producer i with
  | none => p.sourceDone = true
  | some k => (p.stage k).loop = .done

theorem ProducerDone.of_stage {p p' : Pipeline d} {i : ι} (h : ProducerDone p i)
    (source : p.sourceDone = true → p'.sourceDone = true)
    (done : ∀ k, (p.stage k).loop = .done → (p'.stage k).loop = .done) : ProducerDone p' i := by
  unfold ProducerDone at h ⊢
  cases fed : d.producer i with
  | none =>
    simp only [fed] at h ⊢
    exact source h
  | some k =>
    simp only [fed] at h ⊢
    exact done k h

/-- Stages are flagged in their order: whoever feeds a flagged stage has returned. -/
structure Coordinated (p : Pipeline d) : Prop where
  orderly : ∀ i, Orderly (p.stage i)
  fed : ∀ i, (p.stage i).stopping = true → ProducerDone p i
  stopped : ∃ joined, d.order = joined ++ p.toStop ∧ ∀ j ∈ joined, (p.stage j).loop = .done
  source : p.signalled = true → p.sourceDone = true

/-- The producers of the stage whose turn it is have been joined. -/
theorem Coordinated.turn {p : Pipeline d} (h : Coordinated p) {i : ι}
    (first : p.toStop.head? = some i) (source : p.sourceDone = true) : ProducerDone p i := by
  obtain ⟨joined, order, done⟩ := h.stopped
  obtain ⟨rest, toStop⟩ := List.head?_eq_some_iff.mp first
  unfold ProducerDone
  cases fed : d.producer i with
  | none => exact source
  | some k => exact done k (d.upstream joined i rest (by rw [order, toStop]) k fed)

theorem coordinated_start (state : (i : ι) → d.State i) : Coordinated (start d state) where
  orderly i := ⟨rfl, fun _ => rfl, by simp [start], by simp [start]⟩
  fed i := by simp [start]
  stopped := ⟨[], rfl, by simp⟩
  source := by simp [start]

variable [DecidableEq ι]

def Pipeline.set (p : Pipeline d) (i : ι) (s : Stage d i) : Pipeline d :=
  { p with stage := Function.update p.stage i s }

def flagged {i : ι} (s : Stage d i) : Stage d i := { s with stopping := true }

def pipelineStep (p : Pipeline d) : Event d → Option (Pipeline d)
  | .arrive i item =>
    if d.producer i = none ∧ p.sourceDone = false then some (p.set i ((p.stage i).offer item))
    else none
  | .loop i event => (loopStep (p.stage i) event).map (p.set i)
  | .deliver i =>
    match (p.stage i).pending with
    | [] => none
    | ⟨⟨j, _⟩, item⟩ :: rest =>
      let q := p.set i { p.stage i with pending := rest }
      some (q.set j ((q.stage j).offer item))
  | .sourceReturns => some { p with sourceDone := true }
  | .signal =>
    match p.toStop with
    | [] => none
    | i :: _ =>
      if p.sourceDone ∧ p.signalled = false then
        some { (if d.process i then p else p.set i (flagged (p.stage i))) with signalled := true }
      else none
  | .bridge i =>
    if p.signalled ∧ p.toStop.head? = some i ∧ d.process i then
      some (p.set i (flagged (p.stage i)))
    else none
  | .joined =>
    match p.toStop with
    | [] => none
    | i :: rest =>
      if p.signalled ∧ (p.stage i).loop = .done then
        some { p with toStop := rest, signalled := false }
      else none

@[simp] theorem set_same (p : Pipeline d) (i : ι) (s : Stage d i) : (p.set i s).stage i = s := by
  simp [Pipeline.set]

theorem set_other (p : Pipeline d) {i j : ι} (s : Stage d i) (other : j ≠ i) :
    (p.set i s).stage j = p.stage j := by
  simp [Pipeline.set, other]

/-- What a step can do to one stage: it emits or keeps still, is offered an item by
someone who has not returned, takes a step of its loop, or is flagged in its turn. -/
theorem pipelineStep_cases {p p' : Pipeline d} {event : Event d}
    (orderly : ∀ i, Orderly (p.stage i))
    (source : p.signalled = true → p.sourceDone = true)
    (next : pipelineStep p event = some p') (j : ι) :
    (∃ rest, rest <:+ (p.stage j).pending ∧ p'.stage j = { p.stage j with pending := rest }) ∨
    (∃ rest item, rest <:+ (p.stage j).pending ∧ ¬ProducerDone p j ∧
      p'.stage j = Stage.offer { p.stage j with pending := rest } item) ∨
    (∃ own, loopStep (p.stage j) own = some (p'.stage j)) ∨
    (p'.stage j = flagged (p.stage j) ∧ p.toStop.head? = some j ∧ p.sourceDone = true) := by
  have still {q : Pipeline d} (same : q.stage j = p.stage j) :
      ∃ rest, rest <:+ (p.stage j).pending ∧ q.stage j = { p.stage j with pending := rest } :=
    ⟨(p.stage j).pending, List.suffix_rfl, same⟩
  cases event with
  | arrive i item =>
    simp only [pipelineStep] at next
    split at next <;> cases next
    rename_i outside
    by_cases mine : j = i
    · subst mine
      refine Or.inr (Or.inl ⟨(p.stage j).pending, item, List.suffix_rfl, ?_, set_same _ _ _⟩)
      simp [ProducerDone, outside.1, outside.2]
    · exact Or.inl (still (set_other p _ mine))
  | loop i own =>
    simp only [pipelineStep, Option.map_eq_some_iff] at next
    obtain ⟨s, stepped, rfl⟩ := next
    by_cases mine : j = i
    · subst mine
      refine Or.inr (Or.inr (Or.inl ⟨own, ?_⟩))
      rw [set_same]
      exact stepped
    · exact Or.inl (still (set_other p _ mine))
  | deliver i =>
    simp only [pipelineStep] at next
    split at next <;> cases next
    rename_i k feeds item rest pending
    have shorter : rest <:+ (p.stage i).pending := by
      rw [pending]
      exact List.suffix_cons _ _
    by_cases target : j = k
    · subst target
      have busy : ¬ProducerDone p j := by
        intro done
        simp only [ProducerDone, feeds] at done
        have silent := (orderly i).silent done
        rw [pending] at silent
        cases silent
      rw [set_same]
      by_cases mine : j = i
      · subst mine
        exact Or.inr (Or.inl ⟨rest, item, shorter, busy, by rw [set_same]⟩)
      · exact Or.inr (Or.inl ⟨(p.stage j).pending, item, List.suffix_rfl, busy,
          by rw [set_other p _ mine]⟩)
    · rw [set_other _ _ target]
      by_cases mine : j = i
      · subst mine
        exact Or.inl ⟨rest, shorter, set_same _ _ _⟩
      · exact Or.inl (still (set_other p _ mine))
  | sourceReturns =>
    cases next
    exact Or.inl (still rfl)
  | signal =>
    simp only [pipelineStep] at next
    split at next
    · cases next
    · rename_i i rest toStop
      split at next <;> cases next
      rename_i ready
      by_cases child : d.process i = true
      · exact Or.inl (still (by simp [child]))
      · by_cases mine : j = i
        · subst mine
          exact Or.inr (Or.inr (Or.inr ⟨by simp [child], by simp [toStop], ready.1⟩))
        · exact Or.inl (still (by simp [child, set_other, mine]))
  | bridge i =>
    simp only [pipelineStep] at next
    split at next <;> cases next
    rename_i ready
    by_cases mine : j = i
    · subst mine
      exact Or.inr (Or.inr (Or.inr ⟨set_same _ _ _, ready.2.1, source ready.1⟩))
    · exact Or.inl (still (set_other p _ mine))
  | joined =>
    simp only [pipelineStep] at next
    split at next
    · cases next
    · split at next <;> cases next
      exact Or.inl (still rfl)

/-- What a step can do to the progress of the shutdown. -/
theorem pipelineStep_control {p p' : Pipeline d} {event : Event d}
    (next : pipelineStep p event = some p') :
    (p.sourceDone = true → p'.sourceDone = true) ∧
      (p'.signalled = true → p.signalled = true ∨ p.sourceDone = true) ∧
      (p'.toStop = p.toStop ∨
        ∃ i, p.toStop = i :: p'.toStop ∧ (p.stage i).loop = .done) := by
  cases event with
  | arrive i item =>
    simp only [pipelineStep] at next
    split at next <;> cases next
    exact ⟨id, Or.inl, Or.inl rfl⟩
  | loop i own =>
    simp only [pipelineStep, Option.map_eq_some_iff] at next
    obtain ⟨s, _, rfl⟩ := next
    exact ⟨id, Or.inl, Or.inl rfl⟩
  | deliver i =>
    simp only [pipelineStep] at next
    split at next <;> cases next
    exact ⟨id, Or.inl, Or.inl rfl⟩
  | sourceReturns =>
    cases next
    exact ⟨fun _ => rfl, Or.inl, Or.inl rfl⟩
  | signal =>
    simp only [pipelineStep] at next
    split at next
    · cases next
    · rename_i i rest toStop
      split at next <;> cases next
      rename_i ready
      refine ⟨?_, fun _ => Or.inr ready.1, Or.inl ?_⟩ <;> split <;> simp [Pipeline.set]
  | bridge i =>
    simp only [pipelineStep] at next
    split at next <;> cases next
    exact ⟨id, Or.inl, Or.inl rfl⟩
  | joined =>
    simp only [pipelineStep] at next
    split at next
    · cases next
    · rename_i i rest toStop
      split at next <;> cases next
      rename_i returned
      exact ⟨id, by simp, Or.inr ⟨i, toStop, returned.2⟩⟩

theorem Coordinated.done_stays {p p' : Pipeline d} {event : Event d} (h : Coordinated p)
    (next : pipelineStep p event = some p') (k : ι) (done : (p.stage k).loop = .done) :
    (p'.stage k).loop = .done := by
  rcases pipelineStep_cases h.orderly h.source next k with
    ⟨rest, _, same⟩ | ⟨rest, item, _, _, same⟩ | ⟨own, stepped⟩ | ⟨same, _⟩
  · rw [same]
    exact done
  · rw [same, offer_loop]
    exact done
  · exact loopStep_done done stepped
  · rw [same]
    exact done

theorem Coordinated.step {p p' : Pipeline d} {event : Event d} (h : Coordinated p)
    (next : pipelineStep p event = some p') : Coordinated p' := by
  obtain ⟨sourceStays, signalled, toStop⟩ := pipelineStep_control next
  have doneStays := h.done_stays next
  refine ⟨fun i => ?_, fun i flag => ?_, ?_, fun now => ?_⟩
  · rcases pipelineStep_cases h.orderly h.source next i with
      ⟨rest, fewer, same⟩ | ⟨rest, item, fewer, _, same⟩ | ⟨own, stepped⟩ | ⟨same, _⟩
    · rw [same]
      exact (h.orderly i).emitted fewer
    · rw [same]
      exact ((h.orderly i).emitted fewer).offer item
    · exact (h.orderly i).loopStep stepped
    · rw [same]
      exact ⟨(h.orderly i).conserves, (h.orderly i).direct, (h.orderly i).silent, fun _ => rfl⟩
  · have feeder : ProducerDone p i := by
      rcases pipelineStep_cases h.orderly h.source next i with
        ⟨rest, _, same⟩ | ⟨rest, item, _, _, same⟩ | ⟨own, stepped⟩ | ⟨_, first, source⟩
      · rw [same] at flag
        exact h.fed i flag
      · rw [same, offer_stopping] at flag
        exact h.fed i flag
      · rw [loopStep_stopping stepped] at flag
        exact h.fed i flag
      · exact h.turn first source
    exact feeder.of_stage sourceStays doneStays
  · obtain ⟨joined, order, done⟩ := h.stopped
    rcases toStop with same | ⟨i, first, returned⟩
    · exact ⟨joined, by rw [same, order], fun j member => doneStays j (done j member)⟩
    · refine ⟨joined ++ [i], by simp [order, first], fun j member => doneStays j ?_⟩
      rcases List.mem_append.mp member with old | new
      · exact done j old
      · rw [List.mem_singleton.mp new]
        exact returned
  · rcases signalled now with before | source
    · exact sourceStays (h.source before)
    · exact sourceStays source

theorem Coordinated.run {state : (i : ι) → d.State i} {p : Pipeline d} {events : List (Event d)}
    (h : run pipelineStep (start d state) events = some p) : Coordinated p :=
  run_invariant pipelineStep (coordinated_start state) (fun _ _ _ => Coordinated.step) h

/-- A flagged stage, against the state it was flagged in. -/
structure Closing (i : ι) (p q : Pipeline d) : Prop where
  coordinated : Coordinated q
  stopping : (q.stage i).stopping = true
  settled : (p.stage i).box.Settled ((p.stage i).loop = .getting) →
    (q.stage i).box.Settled ((q.stage i).loop = .getting)
  needed : d.process i = false → (q.stage i).box.Settled ((q.stage i).loop = .getting) →
    (p.stage i).box.Settled ((p.stage i).loop = .getting)

theorem Closing.step {i : ι} {p q q' : Pipeline d} {event : Event d} (h : Closing i p q)
    (next : pipelineStep q event = some q') : Closing i p q' := by
  obtain ⟨coordinated, stopping, settled, needed⟩ := h
  have onward := coordinated.step next
  rcases pipelineStep_cases coordinated.orderly coordinated.source next i with
    ⟨rest, _, same⟩ | ⟨rest, item, _, unfed, _⟩ | ⟨own, stepped⟩ | ⟨same, _⟩
  · exact ⟨onward, by rw [same]; exact stopping, by rw [same]; exact settled, by
      rw [same]; exact needed⟩
  · exact absurd (coordinated.fed i stopping) unfed
  · obtain ⟨flag, kept, back⟩ := loopStep_settled (coordinated.orderly i) stopping stepped
    exact ⟨onward, flag, fun before => kept (settled before),
      fun inline after => needed inline (back inline after)⟩
  · exact ⟨onward, by rw [same]; rfl, by rw [same]; exact settled, by rw [same]; exact needed⟩

/-- Whether a stage reads everything put on its queue is settled when it is flagged. -/
theorem Coordinated.drained_of_settled {i : ι} {later : List (Event d)} {event : Event d}
    {m m' s : Pipeline d} (coordinated : Coordinated m) (flag : pipelineStep m event = some m')
    (before : ¬(m.stage i).stopping = true) (after : (m'.stage i).stopping = true)
    (onward : StepSystem.run pipelineStep m' later = some s)
    (returned : (s.stage i).loop = .done) :
    ((m.stage i).box.Settled ((m.stage i).loop = .getting) →
      (s.stage i).box.taken = (s.stage i).box.put) ∧
    (d.process i = false → (s.stage i).box.taken = (s.stage i).box.put →
      (m.stage i).box.Settled ((m.stage i).loop = .getting)) := by
  have begun : Closing i m m' := by
    rcases pipelineStep_cases coordinated.orderly coordinated.source flag i with
      ⟨rest, _, same⟩ | ⟨rest, item, _, _, same⟩ | ⟨own, stepped⟩ | ⟨same, _⟩
    · rw [same] at after
      exact absurd after before
    · rw [same, offer_stopping] at after
      exact absurd after before
    · rw [loopStep_stopping stepped] at after
      exact absurd after before
    · exact ⟨coordinated.step flag, after, by rw [same]; exact id, by rw [same]; exact fun _ => id⟩
  have closed : Closing i m s :=
    run_invariant pipelineStep begun (fun _ _ _ => Closing.step) onward
  have nothingLeft := ((closed.coordinated.orderly i).conserves).taken_iff
  have outside := @Mailbox.settled_outside _ (s.stage i).box ((s.stage i).loop = .getting)
    (by simp [returned])
  rw [nothingLeft, ← outside]
  exact ⟨closed.settled, closed.needed⟩

/-- A stage that has returned was flagged at some step of the run, and what it had left
then decides whether it has read everything. -/
theorem flagged_before_return {state : (i : ι) → d.State i} {i : ι} {events : List (Event d)}
    {s : Pipeline d} (reached : run pipelineStep (start d state) events = some s)
    (returned : (s.stage i).loop = .done) :
    ∃ past event later m m', events = past ++ event :: later ∧
      run pipelineStep (start d state) past = some m ∧ pipelineStep m event = some m' ∧
      (m.stage i).stopping = false ∧ (m'.stage i).stopping = true ∧
      ((m.stage i).box.Settled ((m.stage i).loop = .getting) →
        (s.stage i).box.taken = (s.stage i).box.put) ∧
      (d.process i = false → (s.stage i).box.taken = (s.stage i).box.put →
        (m.stage i).box.Settled ((m.stage i).loop = .getting)) := by
  have stopping := ((Coordinated.run reached).orderly i).flagged (Or.inr returned)
  have fresh : ¬((start d state).stage i).stopping = true := by simp [start]
  obtain ⟨past, event, later, m, m', whole, running, flag, onward, before, after⟩ :=
    run_turns pipelineStep (P := fun p => (p.stage i).stopping = true) fresh stopping reached
  exact ⟨past, event, later, m, m', whole, running, flag, by simpa using before, after,
    (Coordinated.run running).drained_of_settled flag before after onward returned⟩

end EdgeVoice.StagedPipeline
