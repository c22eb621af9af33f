import EdgeVoice.SttWorker

/-! Whose words a transcript line has. A segment's listener keeps its last good partial from
one line to the next, so a line that looped takes the words of an earlier line if it had no
good partial of its own. -/

namespace EdgeVoice.CollectorLines
open PythonText SttWorker StepSystem

/-- What is reported for one line: its partials, then its completed text. -/
structure Line where
  partials : List Str := []
  completed : Str
deriving DecidableEq

def Line.events (line : Line) : List LineEvent :=
  line.partials.map .textChanged ++ [.completed line.completed]

def Line.texts (line : Line) : List Str := line.partials ++ [line.completed]

variable (ratio : ℚ)

def hearLine (c : Collector) (line : Line) : Collector :=
  line.events.foldl (Collector.hear ratio) c

/-- The collector hears one line; what it appends is told with the line. -/
def lineStep (c : Collector) (line : Line) : Collector × List (Line × Str) :=
  (hearLine ratio c line, ((hearLine ratio c line).lines.drop c.lines.length).map (line, ·))

/-- The last text that did not loop. -/
def lastGood (texts : List Str) : Option Str :=
  (texts.filter fun text => !isRepetitive text ratio).getLast?

/-- The text `on_line_completed` settles on when the partials left `best`. -/
def chosen (best : Str) (line : Line) : Str :=
  if isRepetitive line.completed ratio then best else line.completed

/-- Every line written is a text of its own line. -/
def OwnTexts (lines : List Line) : Prop :=
  ∀ entry ∈ (outputs (lineStep ratio) {} lines).2, entry.2 ∈ entry.1.texts

/-- Every line of which all texts loop finds no earlier words to fall back to. -/
def NothingStale (lines : List Line) : Prop :=
  ∀ past line later, lines = past ++ line :: later →
    (∀ text ∈ line.texts, isRepetitive text ratio = true) →
    ∀ stale ∈ lastGood ratio (past.flatMap Line.partials), stale = []

theorem not_repetitive_nil : isRepetitive [] ratio = false := by
  simp [isRepetitive, split]

theorem lastGood_append (texts later : List Str) :
    lastGood ratio (texts ++ later) = (lastGood ratio later).or (lastGood ratio texts) := by
  rw [lastGood, List.filter_append, List.getLast?_append, ← lastGood, ← lastGood]

variable {ratio}

theorem mem_lastGood {texts : List Str} {text : Str} (last : text ∈ lastGood ratio texts) :
    text ∈ texts ∧ isRepetitive text ratio = false := by
  have member := List.mem_filter.mp (List.mem_of_getLast? last)
  simpa using member

theorem lastGood_eq_none {texts : List Str}
    (looped : ∀ text ∈ texts, isRepetitive text ratio = true) : lastGood ratio texts = none := by
  rw [lastGood, List.getLast?_eq_none_iff, List.filter_eq_nil_iff]
  intro text member
  simp [looped text member]

/-- The partials of a line leave its last good one. -/
theorem hear_partials (texts : List Str) (c : Collector) :
    (texts.map LineEvent.textChanged).foldl (Collector.hear ratio) c =
      { c with bestPartial := (lastGood ratio texts).getD c.bestPartial } := by
  induction texts generalizing c with
  | nil => rfl
  | cons text texts ih =>
    rw [List.map_cons, List.foldl_cons, ih, ← List.singleton_append, lastGood_append]
    by_cases looped : isRepetitive text ratio = true
    · have unheard : lastGood ratio [text] = none := lastGood_eq_none (by simpa using looped)
      simp [Collector.hear, Collector.onLineTextChanged, looped, unheard]
    · have best : lastGood ratio [text] = some text := by simp [lastGood, looped]
      cases later : lastGood ratio texts with
      | none => simp [Collector.hear, Collector.onLineTextChanged, looped, best]
      | some last => simp [Collector.hear, Collector.onLineTextChanged, looped]

/-- What one line leaves of the collector. -/
theorem hearLine_eq (c : Collector) (line : Line) :
    hearLine ratio c line =
      { bestPartial := (lastGood ratio line.partials).getD c.bestPartial
        lines := c.lines ++ [chosen ratio ((lastGood ratio line.partials).getD c.bestPartial)
          line].filter (· ≠ []) } := by
  rw [hearLine, Line.events, List.foldl_append, hear_partials]
  simp only [List.foldl_cons, List.foldl_nil, Collector.hear, Collector.onLineCompleted, chosen]
  by_cases empty : (if isRepetitive line.completed ratio = true then
      (lastGood ratio line.partials).getD c.bestPartial else line.completed) = []
  · simp [empty]
  · simp [empty]

/-- What one line appends. -/
theorem mem_lineStep {c : Collector} {line : Line} {entry : Line × Str} :
    entry ∈ (lineStep ratio c line).2 ↔ entry.1 = line ∧ entry.2 ≠ [] ∧
      entry.2 = chosen ratio ((lastGood ratio line.partials).getD c.bestPartial) line := by
  obtain ⟨written, text⟩ := entry
  rw [lineStep, hearLine_eq]
  simp only [List.drop_left, List.mem_map, List.mem_filter, List.mem_singleton, Prod.mk.injEq]
  constructor
  · rintro ⟨other, ⟨rfl, nonempty⟩, rfl, rfl⟩
    exact ⟨rfl, by simpa using nonempty, rfl⟩
  · rintro ⟨rfl, nonempty, same⟩
    exact ⟨text, ⟨same, by simpa using nonempty⟩, rfl, rfl⟩

variable (ratio)

/-- The collector remembers the last good partial of the segment. -/
theorem best_of_past (past : List Line) :
    (outputs (lineStep ratio) {} past).1.bestPartial =
      (lastGood ratio (past.flatMap Line.partials)).getD [] := by
  induction past using List.reverseRecOn with
  | nil => rfl
  | append_singleton past line ih =>
    rw [outputs_append, outputs_cons, outputs_nil, List.flatMap_append, lastGood_append]
    simp only [lineStep, hearLine_eq, ih, List.flatMap_cons, List.flatMap_nil, List.append_nil]
    cases lastGood ratio line.partials with
    | none => rfl
    | some best => rfl

/-- The run appends what it tells of, on the events in the order they were delivered. -/
theorem run_lines (c : Collector) (lines : List Line) :
    (outputs (lineStep ratio) c lines).1 =
        (lines.flatMap Line.events).foldl (Collector.hear ratio) c ∧
      (outputs (lineStep ratio) c lines).1.lines =
        c.lines ++ (outputs (lineStep ratio) c lines).2.map Prod.snd := by
  induction lines generalizing c with
  | nil => simp
  | cons line lines ih =>
    obtain ⟨heard, wrote⟩ := ih (hearLine ratio c line)
    have now : (hearLine ratio c line).lines =
        c.lines ++ (lineStep ratio c line).2.map Prod.snd := by
      simp [lineStep, hearLine_eq, Function.comp_def]
    constructor
    · rw [outputs_cons, List.flatMap_cons, List.foldl_append]
      exact heard
    · rw [outputs_cons, List.map_append, ← List.append_assoc, ← now]
      exact wrote

/-- One line writes its own text unless it looped throughout and found older words. -/
theorem line_own_iff (past : List Line) (line : Line) :
    (∀ entry ∈ (lineStep ratio (outputs (lineStep ratio) {} past).1 line).2,
        entry.2 ∈ line.texts) ↔
      ((∀ text ∈ line.texts, isRepetitive text ratio = true) →
        ∀ stale ∈ lastGood ratio (past.flatMap Line.partials), stale = []) := by
  constructor
  · intro own looped stale last
    by_contra nonempty
    have partials : lastGood ratio line.partials = none :=
      lastGood_eq_none fun text member => looped text (List.mem_append_left _ member)
    have written : (line, stale) ∈
        (lineStep ratio (outputs (lineStep ratio) {} past).1 line).2 := by
      have completed := looped line.completed (by simp [Line.texts])
      have remembered : lastGood ratio (past.flatMap Line.partials) = some stale := last
      rw [mem_lineStep, partials, best_of_past, remembered]
      exact ⟨rfl, nonempty, by simp [chosen, completed]⟩
    -- a stale text did not loop, and all of the line's own did
    have mine := looped stale (own _ written)
    rw [(mem_lastGood last).2] at mine
    exact absurd mine (by simp)
  · intro fresh entry written
    obtain ⟨_, nonempty, same⟩ := mem_lineStep.mp written
    rw [same, chosen]
    by_cases looped : isRepetitive line.completed ratio = true
    · rw [if_pos looped]
      cases best : lastGood ratio line.partials with
      | some text => exact List.mem_append_left _ (mem_lastGood best).1
      | none =>
        have all : ∀ text ∈ line.texts, isRepetitive text ratio = true := by
          intro text member
          rcases List.mem_append.mp member with early | last
          · by_contra good
            have none_good := List.filter_eq_nil_iff.mp (List.getLast?_eq_none_iff.mp best)
            exact none_good text early (by simpa using good)
          · rwa [List.mem_singleton.mp last]
        rw [chosen, if_pos looped, best, best_of_past] at same
        cases remembered : lastGood ratio (past.flatMap Line.partials) with
        | none => exact absurd (by simpa [remembered] using same) nonempty
        | some stale =>
          have empty := fresh all stale remembered
          exact absurd (by simpa [remembered, empty] using same) nonempty
    · rw [if_neg looped]
      simp [Line.texts]

/-- The lines of the transcript never loop, and each is a text of its own line if and only if
no line that looped throughout finds an earlier line's words. -/
theorem own_texts_iff (lines : List Line) :
    ((lines.flatMap Line.events).foldl (Collector.hear ratio) {}).lines =
        (outputs (lineStep ratio) {} lines).2.map Prod.snd ∧
      (∀ entry ∈ (outputs (lineStep ratio) {} lines).2, isRepetitive entry.2 ratio = false) ∧
      (OwnTexts ratio lines ↔ NothingStale ratio lines) := by
  obtain ⟨heard, wrote⟩ := run_lines ratio {} lines
  refine ⟨?_, ?_, ?_⟩
  · rw [← heard, wrote]
    rfl
  · intro entry member
    obtain ⟨past, line, later, whole, written⟩ := (mem_outputs_iff (lineStep ratio)).mp member
    obtain ⟨_, _, same⟩ := mem_lineStep.mp written
    rw [same, chosen]
    by_cases looped : isRepetitive line.completed ratio = true
    · rw [if_pos looped, best_of_past]
      cases best : lastGood ratio line.partials with
      | some text => exact (mem_lastGood best).2
      | none =>
        cases remembered : lastGood ratio (past.flatMap Line.partials) with
        | none => exact not_repetitive_nil ratio
        | some stale => exact (mem_lastGood remembered).2
    · rw [if_neg looped]
      simpa using looped
  · constructor
    · intro own past line later whole
      apply (line_own_iff ratio past line).mp
      intro entry written
      have mine := own entry
        ((mem_outputs_iff (lineStep ratio)).mpr ⟨past, line, later, whole, written⟩)
      rwa [(mem_lineStep.mp written).1] at mine
    · intro fresh entry member
      obtain ⟨past, line, later, whole, written⟩ := (mem_outputs_iff (lineStep ratio)).mp member
      rw [(mem_lineStep.mp written).1]
      exact (line_own_iff ratio past line).mpr (fresh past line later whole) entry written

/-- A line `b` four times over, after a line `a`. -/
def looped : Line := ⟨[], ['b', ' ', 'b', ' ', 'b', ' ', 'b']⟩

/-- It is written as `a`. -/
theorem looped_line_repeats : ¬OwnTexts (9 / 20) [⟨[['a']], ['a']⟩, looped] := by
  intro own
  exact absurd (own (looped, ['a']) (by decide +kernel)) (by decide +kernel)

end EdgeVoice.CollectorLines
