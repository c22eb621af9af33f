import EdgeVoice.StateInvariant

/-! Where a soft cut lands. Scores are recorded from some chunk on and looked up by count
from the end of the list, so the slice is the lookahead window only because no chunk is left
out once one is recorded, through every cut. A grading runs next to a channel and keeps for
each buffered chunk the score the model gave to it. -/

namespace EdgeVoice.SoftCut
open PythonText Models VadWorker VadTrack ChunkTrace SegmentOrder VadCases StateInvariant StepSystem

section Window

variable {α : Type*} {l : List (ℕ × α)}

/-- In order of the keys, the entries below a key come first. -/
theorem filter_lt_append (increasing : (l.map Prod.fst).Pairwise (· < ·)) (m : ℕ) :
    l.filter (·.1 < m) ++ l.filter (m ≤ ·.1) = l := by
  induction l with
  | nil => rfl
  | cons e l ih =>
    rw [List.map_cons, List.pairwise_cons] at increasing
    by_cases below : e.1 < m
    · rw [List.filter_cons_of_pos (by simpa using below),
        List.filter_cons_of_neg (by simpa using below), List.cons_append, ih increasing.2]
    · have above : ∀ other ∈ l, m ≤ other.1 := by
        intro other member
        have later := increasing.1 other.1 (List.mem_map_of_mem member)
        omega
      have none_below : l.filter (·.1 < m) = [] := by
        rw [List.filter_eq_nil_iff]
        intro other member
        simpa using above other member
      rw [List.filter_cons_of_neg (by simpa using below),
        List.filter_cons_of_pos (by simpa using below), none_below, List.nil_append,
        List.filter_eq_self.mpr (by simpa using above)]

/-- The last entries by count are those of a window of keys, if none of its keys is missing
as soon as there are entries before it. -/
theorem drop_eq_window {n width : ℕ} (increasing : (l.map Prod.fst).Pairwise (· < ·))
    (inside : ∀ e ∈ l, e.1 < n)
    (whole : ∀ e ∈ l, e.1 < n - width → ∀ j, n - width ≤ j → j < n → j ∈ l.map Prod.fst) :
    l.drop (l.length - width) = l.filter (n - width ≤ ·.1) := by
  have split := filter_lt_append increasing (n - width)
  have keys : ((l.filter (n - width ≤ ·.1)).map Prod.fst).Nodup :=
    (increasing.sublist (List.filter_sublist.map Prod.fst)).imp fun before => before.ne
  have few : (l.filter (n - width ≤ ·.1)).length ≤ n - (n - width) := by
    have within : (l.filter (n - width ≤ ·.1)).map Prod.fst ⊆
        List.range' (n - width) (n - (n - width)) := by
      intro j member
      obtain ⟨e, kept, rfl⟩ := List.mem_map.mp member
      obtain ⟨old, late⟩ := List.mem_filter.mp kept
      have early := inside e old
      simp only [decide_eq_true_eq] at late
      rw [List.mem_range'_1]
      omega
    simpa using (keys.subperm within).length_le
  cases before : l.filter (·.1 < n - width) with
  | nil =>
    rw [before, List.nil_append] at split
    have short : l.length - width = 0 := by
      rw [← congrArg List.length split]
      omega
    rw [short, List.drop_zero, split]
  | cons e rest =>
    obtain ⟨member, early⟩ := List.mem_filter.mp (before ▸ List.mem_cons_self : e ∈ _)
    simp only [decide_eq_true_eq] at early
    have many : width ≤ (l.filter (n - width ≤ ·.1)).length := by
      have within : List.range' (n - width) width ⊆ (l.filter (n - width ≤ ·.1)).map Prod.fst := by
        intro j member_j
        rw [List.mem_range'_1] at member_j
        obtain ⟨found, old, rfl⟩ := List.mem_map.mp (whole e member early j member_j.1 (by omega))
        exact List.mem_map_of_mem (List.mem_filter.mpr ⟨old, by simpa using member_j.1⟩)
      have distinct : (List.range' (n - width) width).Nodup := List.nodup_range'
      simpa using (distinct.subperm within).length_le
    have count : l.length - width = (l.filter (·.1 < n - width)).length := by
      have total := congrArg List.length split
      rw [List.length_append] at total
      omega
    have dropped := congrArg (List.drop (l.filter (·.1 < n - width)).length) split
    rw [List.drop_left] at dropped
    rw [count, ← dropped]

/-- Of entries in order of their keys, the first of the least ones has the least key. -/
theorem argmin_first {β γ : Type*} [LinearOrder γ] [DecidableEq β] {entries : List β}
    {key : β → ℕ} {score : β → γ} (increasing : (entries.map key).Pairwise (· < ·)) {least e : β}
    (found : entries.argmin score = some least) (member : e ∈ entries) :
    score least ≤ score e ∧ (score e ≤ score least → key least ≤ key e) := by
  refine ⟨List.le_of_mem_argmin member found, fun low => ?_⟩
  have place := List.index_of_argmin found member low
  have here := List.argmin_mem found
  rcases place.eq_or_lt with same | before
  · rw [(List.idxOf_inj here).mp same]
  · have ordered := List.pairwise_iff_getElem.mp (List.pairwise_map.mp increasing)
      (entries.idxOf least) (entries.idxOf e) (List.idxOf_lt_length_iff.mpr here)
      (List.idxOf_lt_length_iff.mpr member) before
    simp only [List.getElem_idxOf] at ordered
    exact ordered.le

end Window

section Scores

variable (cfg : VADWorkerConfig) (chunkS : ℚ)

/-- Of the first `m` chunks: each recorded score is the one given to its chunk, and once a
chunk is recorded every later one is that is near enough to a cut. -/
structure Recorded (m : ℕ) (given : List (Option ℚ)) (scores : List (ℕ × ℚ)) : Prop where
  increasing : (scores.map Prod.fst).Pairwise (· < ·)
  inside : ∀ entry ∈ scores, entry.1 < m
  own : ∀ entry ∈ scores, given[entry.1]? = some (some entry.2)
  onward : ∀ entry ∈ scores, ∀ j, entry.1 ≤ j → j < m →
    cfg.softCutS - cfg.softCutLookaheadS ≤ (j + 1 : ℕ) * chunkS → j ∈ scores.map Prod.fst

variable {cfg chunkS} {m : ℕ} {given : List (Option ℚ)} {scores : List (ℕ × ℚ)}

theorem Recorded.none (m : ℕ) (given : List (Option ℚ)) : Recorded cfg chunkS m given [] := by
  constructor <;> simp

theorem Recorded.longer (h : Recorded cfg chunkS m given scores) (length : given.length = m)
    (score : Option ℚ) : Recorded cfg chunkS m (given ++ [score]) scores := by
  refine ⟨h.increasing, h.inside, fun entry member => ?_, h.onward⟩
  have inside := h.inside entry member
  rw [List.getElem?_append_left (by omega)]
  exact h.own entry member

/-- One more chunk, too early for its score to be recorded. -/
theorem Recorded.skip (h : Recorded cfg chunkS m given scores)
    (early : (m + 1 : ℕ) * chunkS < cfg.softCutS - cfg.softCutLookaheadS) :
    Recorded cfg chunkS (m + 1) given scores := by
  refine ⟨h.increasing, fun entry member => Nat.lt_succ_of_lt (h.inside entry member), h.own, ?_⟩
  intro entry member j after inside near
  rcases Nat.lt_succ_iff_lt_or_eq.mp inside with before | last
  · exact h.onward entry member j after before near
  · rw [last] at near
    exact absurd early (not_lt.mpr near)

/-- One more chunk, and its score. -/
theorem Recorded.record (h : Recorded cfg chunkS m given scores) {score : ℚ}
    (last : given[m]? = some (some score)) :
    Recorded cfg chunkS (m + 1) given (scores ++ [(m, score)]) := by
  refine ⟨increasing_concat h.increasing h.inside score, fun entry member => ?_,
    fun entry member => ?_, ?_⟩
  · rcases List.mem_append.mp member with old | new
    · exact Nat.lt_succ_of_lt (h.inside entry old)
    · rw [List.mem_singleton.mp new]
      exact Nat.lt_succ_self m
  · rcases List.mem_append.mp member with old | new
    · exact h.own entry old
    · rw [List.mem_singleton.mp new]
      exact last
  · intro entry member j after inside near
    rw [List.map_append, List.mem_append]
    rcases Nat.lt_succ_iff_lt_or_eq.mp inside with before | equal
    · left
      rcases List.mem_append.mp member with old | new
      · exact h.onward entry old j after before near
      · rw [List.mem_singleton.mp new] at after
        omega
    · right
      simp [equal]

/-- The tail of a cut has the scores of its chunks under their new numbers. -/
theorem Recorded.cut (h : Recorded cfg chunkS m given scores) (k : ℕ) (nonneg : 0 ≤ chunkS) :
    Recorded cfg chunkS (m - k) (given.drop k)
      ((scores.filter (k ≤ ·.1)).map fun p => (p.1 - k, p.2)) := by
  refine ⟨increasing_cut h.increasing k, fun entry member => ?_, fun entry member => ?_, ?_⟩
  · have inside := h.inside _ (mem_of_mem_cut member)
    simp only at inside
    omega
  · rw [List.getElem?_drop, Nat.add_comm]
    exact h.own _ (mem_of_mem_cut member)
  · intro entry member j after inside near
    have later : (j + 1 : ℕ) * chunkS ≤ (j + k + 1 : ℕ) * chunkS := by
      apply mul_le_mul_of_nonneg_right _ nonneg
      exact_mod_cast (by omega : j + 1 ≤ j + k + 1)
    have found := h.onward _ (mem_of_mem_cut member) (j + k) (by simpa using after) (by omega)
      (near.trans later)
    obtain ⟨old, inScores, at_j⟩ := List.mem_map.mp found
    refine List.mem_map.mpr ⟨(j, old.2), List.mem_map.mpr ⟨old, ?_, ?_⟩, rfl⟩
    · exact List.mem_filter.mpr ⟨inScores, by simp [at_j]⟩
    · rw [at_j, Nat.add_sub_cancel]

/-- Where a dip is looked for, the last scores by count are those of the lookahead window. -/
theorem Recorded.window (h : Recorded cfg chunkS m given scores) (pos : 0 < chunkS)
    (lookahead : 0 ≤ cfg.softCutLookaheadS) (due : cfg.softCutS ≤ m * chunkS)
    (latest : m - 1 ∈ scores.map Prod.fst) :
    scores.drop (scores.length - max 1 ⌊cfg.softCutLookaheadS / chunkS⌋₊) =
      scores.filter (m - max 1 ⌊cfg.softCutLookaheadS / chunkS⌋₊ ≤ ·.1) := by
  apply drop_eq_window h.increasing h.inside
  intro entry member before j late inside
  by_cases last : j = m - 1
  · rw [last]
    exact latest
  · apply h.onward entry member j (by omega) inside
    -- the window is more than one chunk wide, so it lasts no longer than the lookahead
    have chunks : (⌊cfg.softCutLookaheadS / chunkS⌋₊ : ℚ) * chunkS ≤ cfg.softCutLookaheadS := by
      rw [← le_div_iff₀ pos]
      exact Nat.floor_le (div_nonneg lookahead pos.le)
    have reach : (m : ℚ) ≤ (j + 1 : ℕ) + ⌊cfg.softCutLookaheadS / chunkS⌋₊ := by
      exact_mod_cast (by omega : m ≤ j + 1 + ⌊cfg.softCutLookaheadS / chunkS⌋₊)
    have seconds := mul_le_mul_of_nonneg_right reach pos.le
    rw [add_mul] at seconds
    linarith

/-- A dip below the newest score lies behind the newest chunk, and is the first of the least
scores of the window. -/
theorem Recorded.dips {score least : ℚ} {i : ℕ}
    (h : Recorded cfg chunkS m given (scores ++ [(m - 1, score)])) (pos : 0 < chunkS)
    (lookahead : 0 ≤ cfg.softCutLookaheadS) (due : cfg.softCutS ≤ m * chunkS)
    (found : ((scores ++ [(m - 1, score)]).drop ((scores ++ [(m - 1, score)]).length -
      max 1 ⌊cfg.softCutLookaheadS / chunkS⌋₊)).argmin Prod.snd = some (i, least))
    (dip : least < score) :
    m - max 1 ⌊cfg.softCutLookaheadS / chunkS⌋₊ ≤ i ∧ i + 2 ≤ m ∧
      (i, least) ∈ scores ++ [(m - 1, score)] ∧
      ∀ entry ∈ scores ++ [(m - 1, score)],
        m - max 1 ⌊cfg.softCutLookaheadS / chunkS⌋₊ ≤ entry.1 →
        least ≤ entry.2 ∧ (entry.2 ≤ least → i ≤ entry.1) ∧
          given[entry.1]? = some (some entry.2) := by
  rw [h.window pos lookahead due (by simp)] at found
  obtain ⟨member, late⟩ := List.mem_filter.mp (List.argmin_mem found)
  simp only [decide_eq_true_eq] at late
  have inside := h.inside _ member
  have ordered := h.increasing.sublist ((List.filter_sublist (p := fun entry =>
    decide (m - max 1 ⌊cfg.softCutLookaheadS / chunkS⌋₊ ≤ entry.1))).map Prod.fst)
  -- the newest chunk has the newest score, which is no dip
  have earlier : i ≠ m - 1 := by
    intro newest
    have mine := h.own _ member
    have newest_own := h.own (m - 1, score) (by simp)
    simp only [newest] at mine newest_own
    have equal : least = score := by
      simpa using mine.symm.trans newest_own
    exact absurd equal dip.ne
  simp only at inside
  refine ⟨late, by omega, member, fun entry other near => ?_⟩
  have mine : entry ∈ (scores ++ [(m - 1, score)]).filter
      (m - max 1 ⌊cfg.softCutLookaheadS / chunkS⌋₊ ≤ ·.1) :=
    List.mem_filter.mpr ⟨other, by simpa using near⟩
  obtain ⟨low, first⟩ := argmin_first ordered found mine
  exact ⟨low, first, h.own entry other⟩

end Scores

section Grading

/-- A channel, and the score the model gave to each buffered chunk. Those out of the preroll
have none here: the code never records theirs. -/
structure Graded (σ : Type) where
  given : List (Option ℚ) := []
  state : ChannelState σ

variable {σ : Type} (cfg : VADWorkerConfig) (it : VADIterator σ)

/-- The score the model gives to the packet. -/
def scoreOf (packet : AudioPacket) (state : ChannelState σ) : ℚ :=
  it.lastScore (heardIter it packet state)

/-- The scores of the chunks that are in the buffer at some moment of an event. -/
def grading (t : Graded σ) : VadEvent → List (Option ℚ)
  | .packet packet _ =>
    match replyTo cfg it packet t.state with
    | some .started =>
      t.state.preroll.map (fun _ => none) ++ [some (scoreOf it packet t.state)]
    | some .ended => t.given ++ [some (scoreOf it packet t.state)]
    | some .nothing =>
      if t.state.triggered then t.given ++ [some (scoreOf it packet t.state)] else t.given
    | _ => t.given
  | _ => t.given

/-- One event of the channel; the scores of the chunks that left the buffer go with them. -/
def gradedStep (c : Str) (t : Graded σ) (event : VadEvent) : Graded σ × List Effect :=
  let result := channelStep cfg it c t.state event
  let through := grading cfg it t event
  (⟨through.drop (through.length - result.1.segmentChunks.length), result.1⟩, result.2)

/-- A channel's grading over a run of the worker. -/
def graded (iterators : Str → σ) (c : Str) (events : List VadEvent) : Graded σ :=
  (outputs (gradedStep cfg it c) ⟨[], freshChannels it iterators c⟩
    (events.filter (concerns c))).1

variable {cfg it} {chunkS : ℚ}

/-- One score for each chunk, and of the recorded ones what `Recorded` says. -/
structure Kept (cfg : VADWorkerConfig) (chunkS : ℚ) (t : Graded σ) : Prop where
  length : t.given.length = t.state.segmentChunks.length
  recorded : Recorded cfg chunkS t.state.segmentChunks.length t.given t.state.scores

/-- The middle of speech, from the buffer with the packet's chunk in it. -/
theorem continueSegment_recorded (limited : cfg.segmentLimitsEnabled = true)
    (enabled : cfg.softCutEnabled = true) {packet : AudioPacket}
    (audible : 0 < packet.samples.length / 2) (seconds : chunkSeconds cfg packet = chunkS)
    {state : ChannelState σ} {given : List (Option ℚ)} {m : ℕ}
    (count : state.segmentChunks.length = m + 1) (length : given.length = m)
    (h : Recorded cfg chunkS m given state.scores) {startTs : ℚ} {segmentId : Str}
    (begun : state.segmentStartTs = some startTs) (named : state.segmentId = some segmentId) :
    ∃ k ≤ m + 1, (continueSegment cfg it packet state).1.segmentChunks.length = m + 1 - k ∧
      Recorded cfg chunkS (m + 1 - k)
        ((given ++ [some (it.lastScore state.vadIter)]).drop k)
        (continueSegment cfg it packet state).1.scores := by
  obtain ⟨cut, shown, did, next, same⟩ :=
    @continueSegment_case σ cfg it packet state startTs segmentId begun named
  have longer := h.longer length (some (it.lastScore state.vadIter))
  have record : Recorded cfg chunkS (m + 1) (given ++ [some (it.lastScore state.vadIter)])
      (scored it state).scores := by
    have last : state.segmentChunks.length - 1 = m := by omega
    simp only [scored, last]
    apply longer.record
    rw [← length]
    simp
  have nonneg : 0 ≤ chunkS := seconds ▸ chunkSeconds_nonneg cfg packet
  have checked : ∃ k ≤ m + 1, cut.1.segmentChunks.length = m + 1 - k ∧
      Recorded cfg chunkS (m + 1 - k)
        ((given ++ [some (it.lastScore state.vadIter)]).drop k) cut.1.scores := by
    cases did with
    | none _ early =>
      refine ⟨0, Nat.zero_le _, count, longer.skip ?_⟩
      have soon := early limited audible enabled
      rwa [segmentSeconds, seconds, count] at soon
    | recorded => exact ⟨0, Nat.zero_le _, count, record⟩
    | hard =>
      rw [cutSegment_open packet.channelId _ _ begun named (by omega) (le_refl _), count]
      refine ⟨m + 1, le_refl _, by simp [count], ?_⟩
      -- this chunk has no score, and no earlier one is left
      have none_left : state.scores.filter (m + 1 ≤ ·.1) = [] := by
        rw [List.filter_eq_nil_iff]
        intro entry member
        have inside := h.inside entry member
        simp only [decide_eq_true_eq]
        omega
      rw [none_left]
      exact Recorded.none _ _
    | soft _ _ _ _ _ i score =>
      rcases cutSegment_cases packet.channelId (i + 1) (chunkSeconds cfg packet)
          (scored it state) with outside | ⟨pos, inside⟩
      · rw [outside]
        exact ⟨0, Nat.zero_le _, count, record⟩
      · rw [@cutSegment_open σ packet.channelId _ _ (scored it state) _ _ begun named pos inside]
        have within : i + 1 ≤ m + 1 := count ▸ inside
        refine ⟨i + 1, within, ?_, record.cut (i + 1) nonneg⟩
        simp [scored, count]
  rw [same]
  cases next with
  | silent => exact checked
  | shown => exact checked

/-- The step lemma. -/
theorem Kept.step {ok : ℚ → Prop} {c : Str} (limited : cfg.segmentLimitsEnabled = true)
    (enabled : cfg.softCutEnabled = true) {t : Graded σ} (coherent : Coherent ok cfg it t.state)
    (h : Kept cfg chunkS t) (event : VadEvent)
    (own : ∀ packet now, event = .packet packet now → packet.channelId = c ∧
      0 < packet.samples.length / 2 ∧ chunkSeconds cfg packet = chunkS) :
    Kept cfg chunkS (gradedStep cfg it c t event).1 := by
  have did := channelStep_case coherent event fun packet now received =>
    (own packet now received).1
  unfold gradedStep
  simp only
  -- an event that leaves the buffer and the scores alone
  have still (result : ChannelState σ × List Effect) (passes : grading cfg it t event = t.given)
      (chunks : result.1.segmentChunks = t.state.segmentChunks)
      (scores : result.1.scores = t.state.scores) :
      Kept cfg chunkS ⟨(grading cfg it t event).drop
        ((grading cfg it t event).length - result.1.segmentChunks.length), result.1⟩ := by
    have all : t.given.length - result.1.segmentChunks.length = 0 := by
      rw [chunks, h.length, Nat.sub_self]
    rw [passes, all, List.drop_zero]
    exact ⟨by rw [chunks]; exact h.length, by rw [chunks, scores]; exact h.recorded⟩
  -- an event that empties both
  have emptied (result : ChannelState σ × List Effect) (through : List (Option ℚ))
      (chunks : result.1.segmentChunks = []) (scores : result.1.scores = []) :
      Kept cfg chunkS ⟨through.drop (through.length - result.1.segmentChunks.length), result.1⟩ := by
    refine ⟨?_, ?_⟩
    · rw [chunks]
      simp
    · rw [scores]
      exact Recorded.none _ _
  generalize channelStep cfg it c t.state event = result at did
  cases did with
  | idle noPacket =>
    apply still _ _ rfl rfl
    cases event with
    | packet packet now => exact absurd rfl (noPacket packet now)
    | idleCheck now => rfl
    | flush => rfl
  | lost packet now received reply =>
    subst received
    apply still _ _ rfl rfl
    rcases reply with unheard | raised
    · simp [grading, unheard]
    · simp [grading, raised]
  | waited packet now received quiet reply =>
    subst received
    apply still _ _ rfl rfl
    rcases reply with unheard | nothing
    · simp [grading, unheard]
    · simp [grading, nothing, quiet]
  | started packet now received quiet reply =>
    subst received
    simp only [grading, reply, startSegment, newSegmentId, heard]
    refine ⟨by simp, Recorded.none _ _⟩
  | ended => exact emptied _ _ rfl rfl
  | flushed => exact emptied _ _ rfl rfl
  | continued packet now received speaking reply triggered startTs segmentId begun named =>
    obtain ⟨_, audible, seconds⟩ := own packet now received
    subst received
    have count : (extended it packet now t.state).segmentChunks.length =
        t.state.segmentChunks.length + 1 := by
      simp [extended]
    obtain ⟨k, within, left, recorded⟩ := @continueSegment_recorded σ cfg it chunkS limited enabled
      packet audible seconds (extended it packet now t.state) t.given _ count h.length h.recorded
      startTs segmentId begun named
    have through : grading cfg it t (.packet packet now) =
        t.given ++ [some (scoreOf it packet t.state)] := by
      simp [grading, reply, speaking]
    have gone : (t.given ++ [some (scoreOf it packet t.state)]).length -
        (t.state.segmentChunks.length + 1 - k) = k := by
      rw [List.length_append, List.length_singleton, h.length]
      omega
    simp only [through, left, gone]
    refine ⟨?_, ?_⟩
    · rw [left, List.length_drop, List.length_append, List.length_singleton, h.length]
    · rw [left]
      exact recorded

/-- The graded channel is the channel. -/
theorem gradedStep_state (c : Str) (t : Graded σ) (events : List VadEvent) :
    (outputs (gradedStep cfg it c) t events).1.state =
      (outputs (channelStep cfg it c) t.state events).1 := by
  induction events generalizing t with
  | nil => rfl
  | cons event events ih => exact ih (gradedStep cfg it c t event).1

theorem graded_state (keys : ChannelKeys) (iterators : Str → σ) {c : Str}
    (configured : c ∈ keys.val) (events : List VadEvent) :
    (graded cfg it iterators c events).state = reached cfg it keys iterators events c := by
  have run := worker_on_channel cfg it keys (freshChannels it iterators) events configured
  exact (gradedStep_state c _ _).trans (congrArg Prod.fst run).symm

/-- The run lemma. -/
theorem graded_kept (iterators : Str → σ) {c : Str} (limited : cfg.segmentLimitsEnabled = true)
    (enabled : cfg.softCutEnabled = true) {events : List VadEvent}
    (lasting : ∀ packet now, .packet packet now ∈ events → packet.channelId = c →
      0 < packet.samples.length / 2 ∧ chunkSeconds cfg packet = chunkS) :
    Kept cfg chunkS (graded cfg it iterators c events) := by
  let Own (event : VadEvent) : Prop := ∀ packet now, event = .packet packet now →
    packet.channelId = c ∧ 0 < packet.samples.length / 2 ∧ chunkSeconds cfg packet = chunkS
  have preserved (t : Graded σ) (event : VadEvent)
      (kept : Coherent (fun _ => True) cfg it t.state ∧ Kept cfg chunkS t) (own : Own event) :
      (Coherent (fun _ => True) cfg it (gradedStep cfg it c t event).1.state ∧
        Kept cfg chunkS (gradedStep cfg it c t event).1) ∧
        ∀ effect ∈ (gradedStep cfg it c t event).2, True := by
    have coherent := (channelStep_run c kept.1 event fun packet now received =>
      ⟨(own packet now received).1, trivial⟩).2
    exact ⟨⟨coherent, kept.2.step limited enabled kept.1 event own⟩, fun _ _ => trivial⟩
  have own : ∀ event ∈ events.filter (concerns c), Own event := by
    rintro event member packet now rfl
    obtain ⟨member, mine⟩ := List.mem_filter.mp member
    have here : packet.channelId = c := by simpa [concerns] using mine
    exact ⟨here, lasting packet now member here⟩
  have fresh : Kept cfg chunkS ⟨[], freshChannels it iterators c⟩ :=
    ⟨rfl, Recorded.none _ _⟩
  exact (outputs_invariant (gradedStep cfg it c) preserved
    ⟨freshChannels_coherent (fun _ => True) cfg it iterators c, fresh⟩ own).1.2

end Grading

section Placement

variable {σ : Type} {cfg : VADWorkerConfig} {it : VADIterator σ}

theorem lookaheadChunks_eq (packet : AudioPacket) (lookahead : 0 ≤ cfg.softCutLookaheadS) :
    lookaheadChunks cfg packet = max 1 ⌊cfg.softCutLookaheadS / chunkSeconds cfg packet⌋₊ := by
  have nonneg : 0 ≤ cfg.softCutLookaheadS / chunkSeconds cfg packet :=
    div_nonneg lookahead (chunkSeconds_nonneg cfg packet)
  unfold lookaheadChunks truncate
  rw [if_pos nonneg, ← Int.natCast_floor_eq_floor nonneg]
  omega

/-- A final in the middle of speech that is too short for the hard cap: the soft cut's. -/
theorem softCut_of_final {packet : AudioPacket} {state : ChannelState σ} {startTs : ℚ}
    {segmentId : Str} (begun : state.segmentStartTs = some startTs)
    (named : state.segmentId = some segmentId)
    (below : segmentSeconds cfg packet state < cfg.maxSegmentS) {segment : SpeechSegment}
    (final : segment ∈ finals (continueSegment cfg it packet state).2) :
    ∃ i score, (recent cfg it packet state).argmin Prod.snd = some (i, score) ∧
      score < it.lastScore state.vadIter - cfg.softCutMinDip ∧
      cfg.softCutEnabled = true ∧ 0 < packet.samples.length / 2 ∧
      cfg.softCutS ≤ segmentSeconds cfg packet state ∧
      segment.audio = (state.segmentChunks.take (i + 1)).flatten ∧
      (continueSegment cfg it packet state).1.segmentChunks =
        state.segmentChunks.drop (i + 1) := by
  obtain ⟨cut, shown, did, next, same⟩ :=
    @continueSegment_case σ cfg it packet state startTs segmentId begun named
  have silent : finals shown.2 = [] := by
    cases next with
    | silent => rfl
    | shown => rfl
  have after : shown.1.segmentChunks = cut.1.segmentChunks := by
    cases next with
    | silent => rfl
    | shown => rfl
  rw [same] at final
  rw [same]
  simp only [finals_append, silent, List.append_nil] at final
  simp only [after]
  cases did with
  | none => simp [finals] at final
  | recorded => simp [finals] at final
  | hard _ _ full => exact absurd full (not_le.mpr below)
  | soft _ audible _ enabled due i score found dip =>
    refine ⟨i, score, found, dip, enabled, audible, due, ?_⟩
    rcases cutSegment_cases packet.channelId (i + 1) (chunkSeconds cfg packet)
        (scored it state) with outside | ⟨pos, inside⟩
    · rw [outside] at final
      simp [finals] at final
    · rw [@cutSegment_open σ packet.channelId _ _ (scored it state) _ _ begun named pos inside]
        at final ⊢
      simp only [finals, List.filterMap_cons, List.filterMap_nil, List.mem_singleton] at final
      rw [final]
      exact ⟨rfl, rfl⟩

/-- A packet on which the iterator reports nothing puts a final only in the middle of speech. -/
theorem continued_of_final {ok : ℚ → Prop} {state : ChannelState σ}
    (coherent : Coherent ok cfg it state) (packet : AudioPacket) (now : ℚ)
    (reply : replyTo cfg it packet state = some .nothing) {segment : SpeechSegment}
    (final : segment ∈
      finals (channelStep cfg it packet.channelId state (.packet packet now)).2) :
    ∃ startTs segmentId, state.segmentStartTs = some startTs ∧
      state.segmentId = some segmentId ∧
      channelStep cfg it packet.channelId state (.packet packet now) =
        continueSegment cfg it packet (extended it packet now state) := by
  have did := channelStep_case coherent (.packet packet now) fun _ _ received => by
    cases received
    rfl
  generalize channelStep cfg it packet.channelId state (.packet packet now) = result at did final
  cases did with
  | idle noPacket => exact absurd rfl (noPacket packet now)
  | lost => simp [finals] at final
  | waited => simp [finals] at final
  | started packet' now' received quiet started =>
    cases received
    simp [reply] at started
  | ended packet' now' received speaking ended =>
    cases received
    simp [reply] at ended
  | flushed due => exact absurd due (by simp [FlushDue])
  | continued packet' now' received speaking _ triggered startTs segmentId begun named =>
    cases received
    exact ⟨startTs, segmentId, begun, named, rfl⟩

/-- The recorded scores of a channel with one more chunk, the packet's, scored too. -/
theorem graded_record {keys : ChannelKeys} (iterators : Str → σ) {c : Str}
    (configured : c ∈ keys.val) (limited : cfg.segmentLimitsEnabled = true)
    (enabled : cfg.softCutEnabled = true) {chunkS : ℚ} (past : List VadEvent)
    (lasting : ∀ packet now, .packet packet now ∈ past → packet.channelId = c →
      0 < packet.samples.length / 2 ∧ chunkSeconds cfg packet = chunkS) (score : ℚ) :
    Recorded cfg chunkS ((reached cfg it keys iterators past c).segmentChunks.length + 1)
      ((graded cfg it iterators c past).given ++ [some score])
      ((reached cfg it keys iterators past c).scores ++
        [((reached cfg it keys iterators past c).segmentChunks.length + 1 - 1, score)]) := by
  obtain ⟨length, recorded⟩ := graded_kept iterators limited enabled lasting
  rw [@graded_state σ cfg it keys iterators c configured past] at length recorded
  apply (recorded.longer length (some score)).record
  rw [← length]
  simp

variable (cfg it)

/-- With segment limits and packets of one length on the channel: a packet in the middle of
speech that brings the segment to `n` chunks, too few for the hard cap, and closes it, closes
it after the first chunk that attains the least score recorded in the lookahead window. Each of
these scores is the one the model gave to that chunk, and both sides of the cut have chunks. -/
theorem softCut_lands (keys : ChannelKeys) (iterators : Str → σ) {c : Str}
    (configured : c ∈ keys.val) (limited : cfg.segmentLimitsEnabled = true)
    (lookahead : 0 ≤ cfg.softCutLookaheadS) (minDip : 0 ≤ cfg.softCutMinDip) {size : ℕ}
    (past : List VadEvent)
    (length : ∀ packet now, .packet packet now ∈ past → packet.channelId = c →
      packet.samples.length = size)
    (packet : AudioPacket) (now : ℚ) (own : packet.channelId = c)
    (last : packet.samples.length = size)
    (reply : replyTo cfg it packet (reached cfg it keys iterators past c) = some .nothing)
    (segment : SpeechSegment)
    (final : segment ∈ finals (channelStep cfg it c (reached cfg it keys iterators past c)
      (.packet packet now)).2)
    (n : ℕ) (count : n = (reached cfg it keys iterators past c).segmentChunks.length + 1)
    (below : n * chunkSeconds cfg packet < cfg.maxSegmentS) :
    let state := reached cfg it keys iterators past c
    let chunks := state.segmentChunks ++ [packet.samples]
    let score := scoreOf it packet state
    let L := max 1 ⌊cfg.softCutLookaheadS / chunkSeconds cfg packet⌋₊
    ∃ i least, n - L ≤ i ∧ i + 2 ≤ n ∧ (i, least) ∈ state.scores ++ [(n - 1, score)] ∧
      (∀ entry ∈ state.scores ++ [(n - 1, score)], n - L ≤ entry.1 →
        least ≤ entry.2 ∧ (entry.2 ≤ least → i ≤ entry.1) ∧
          ((graded cfg it iterators c past).given ++ [some score])[entry.1]? =
            some (some entry.2)) ∧
      segment.audio = (chunks.take (i + 1)).flatten ∧
      (reached cfg it keys iterators (past ++ [.packet packet now]) c).segmentChunks =
        chunks.drop (i + 1) ∧
      chunks.take (i + 1) ≠ [] ∧ chunks.drop (i + 1) ≠ [] := by
  intro state chunks score L
  subst own
  have coherent : Coherent (fun _ => True) cfg it state :=
    @reached_coherent σ cfg it keys iterators packet.channelId configured past
  obtain ⟨startTs, segmentId, begun, named, continued⟩ :=
    continued_of_final coherent packet now reply final
  have after : reached cfg it keys iterators (past ++ [.packet packet now]) packet.channelId =
      (continueSegment cfg it packet (extended it packet now state)).1 := by
    rw [reached_concat cfg it keys iterators configured, ← continued]
    simp [concerns, state]
  have seconds : segmentSeconds cfg packet (extended it packet now state) =
      n * chunkSeconds cfg packet := by
    simp [segmentSeconds, extended, count, state]
  rw [continued] at final
  obtain ⟨i, least, found, dip, enabled, audible, due, audio, left⟩ :=
    @softCut_of_final σ cfg it packet (extended it packet now state) startTs segmentId begun named
      (seconds ▸ below) segment final
  have through := @graded_record σ cfg it keys iterators _ configured limited enabled
    (chunkSeconds cfg packet) past (fun other now member mine => by
      rw [chunkSeconds, chunkSeconds, length other now member mine, ← last]
      exact ⟨audible, rfl⟩) score
  rw [← count] at through
  have pos : 0 < chunkSeconds cfg packet := by
    have rate := cfg.sampleRate_pos
    unfold chunkSeconds
    positivity
  have unheard : it.lastScore (extended it packet now state).vadIter = score := rfl
  have newest : (scored it (extended it packet now state)).scores =
      state.scores ++ [(n - 1, score)] := by
    simp [scored, extended, heard, score, scoreOf, state, count]
  rw [recent, lookaheadChunks_eq packet lookahead, newest] at found
  rw [unheard] at dip
  obtain ⟨late, inside, member, least_of⟩ :=
    through.dips pos lookahead (seconds ▸ due) found (by linarith)
  refine ⟨i, least, late, inside, member, least_of, audio, after ▸ left, ?_, ?_⟩
  · simp [chunks]
  · have held : n = state.segmentChunks.length + 1 := count
    rw [Ne, List.drop_eq_nil_iff]
    simp only [chunks, List.length_append, List.length_singleton]
    omega

omit cfg it

def dipping : VADWorkerConfig :=
  { ungated with
    segmentLimitsEnabled := true, maxSegmentS := 7 / 16000, softCutS := 3 / 16000
    softCutLookaheadS := 2 / 16000, softCutMinDip := 0 }

/-- Two packets alike. -/
def evenRun : List VadEvent :=
  [.packet ⟨['r'], 0, [1, 0]⟩ 0, .packet ⟨['r'], 1, [1, 0]⟩ 1]

/-- A third that is louder comes: the cut is behind the second. -/
theorem dip_lands :
    ∃ i, i + 2 ≤ 3 ∧
      (reached dipping loudnessIterator channelR (fun _ => (false, 0))
        (evenRun ++ [.packet ⟨['r'], 2, [2, 0]⟩ 2]) ['r']).segmentChunks =
          [[1, 0], [1, 0], [2, 0]].drop (i + 1) := by
  have length : ∀ packet now, .packet packet now ∈ evenRun → packet.channelId = ['r'] →
      packet.samples.length = 2 := by
    intro packet now member _
    simp only [evenRun, List.mem_cons, VadEvent.packet.injEq, List.not_mem_nil, or_false]
      at member
    rcases member with ⟨rfl, _⟩ | ⟨rfl, _⟩ <;> rfl
  have lands := @softCut_lands (Bool × ℚ) dipping loudnessIterator channelR (fun _ => (false, 0))
    ['r'] (by decide) rfl (by decide +kernel) (by decide +kernel) 2 evenRun length
    ⟨['r'], 2, [2, 0]⟩ 2 rfl rfl (by decide +kernel)
    ⟨['r'], 0, 2 / 16000, [1, 0, 1, 0], segmentIdText ['r'] 0 1, false⟩ (by decide +kernel) 3
    (by decide +kernel) (by decide +kernel)
  obtain ⟨i, least, late, inside, member, first, audio, left, nonempty⟩ := lands
  refine ⟨i, inside, left.trans ?_⟩
  have held : (reached dipping loudnessIterator channelR (fun _ => (false, 0)) evenRun
      ['r']).segmentChunks = [[1, 0], [1, 0]] := by decide +kernel
  rw [held]
  rfl

end Placement

end EdgeVoice.SoftCut
