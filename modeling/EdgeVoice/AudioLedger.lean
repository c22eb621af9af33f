import EdgeVoice.VadTrack

/-! Where a channel's audio goes. A log of the packets the worker received on the
channel says which chunks are to be kept: those in speech and the preroll of each
start. The finals of a whole run, closed by a flush, partition the kept chunks. -/

namespace EdgeVoice.AudioLedger
open PythonText Models VadWorker VadTrack StepSystem

/-- One packet as the channel received it: whether `_handle_packet` raised on it, and
whether the iterator was triggered before and after it. -/
structure Reception where
  samples : List UInt8
  rejected : Bool
  before : Bool
  after : Bool
deriving DecidableEq

def Reception.inSpeech (r : Reception) : Bool := r.before || r.after

def Reception.starts (r : Reception) : Bool := !r.before && r.after

/-- A position is kept when it is in speech, or at most `n` places before a start
with nothing in speech in between. -/
def Kept (n : ℕ) (log : List Reception) (i : ℕ) : Prop :=
  (∃ r ∈ log[i]?, r.inSpeech = true) ∨
    ∃ d < n, (∃ r ∈ log[i + d + 1]?, r.starts = true) ∧
      ∀ r ∈ (log.drop i).take (d + 1), r.inSpeech = false

instance (n : ℕ) (log : List Reception) : DecidablePred (Kept n log) := by
  intro i
  unfold Kept
  infer_instance

def keptPositions (n : ℕ) (log : List Reception) : List ℕ :=
  (List.range log.length).filter (Kept n log ·)

def chunkAt (log : List Reception) (i : ℕ) : List UInt8 :=
  (log[i]?.map Reception.samples).getD []

/-- The audio of the finals, in order, cuts the kept positions into consecutive
nonempty parts: each kept chunk is in one final, and nothing else is. -/
def Conserved (n : ℕ) (log : List Reception) (audio : List (List UInt8)) : Prop :=
  ∃ parts : List (List ℕ), [] ∉ parts ∧ parts.flatten = keptPositions n log ∧
    audio = parts.map fun positions => positions.flatMap (chunkAt log)

theorem Conserved.flatten {n : ℕ} {log : List Reception} {audio : List (List UInt8)}
    (h : Conserved n log audio) : audio.flatten = (keptPositions n log).flatMap (chunkAt log) := by
  obtain ⟨parts, _, positions, cut⟩ := h
  rw [cut, ← positions, List.flatMap_def, List.map_flatten, List.flatten_flatten]
  simp only [List.map_map, Function.comp_def, List.flatMap_def]

section Positions

variable {n : ℕ} {log : List Reception}

/-- How many chunks a start would find in the preroll. -/
def quietTail (n : ℕ) (log : List Reception) : ℕ :=
  min n (log.rtakeWhile (!·.inSpeech)).length

theorem quietTail_le_length (n : ℕ) (log : List Reception) : quietTail n log ≤ log.length := by
  have short := (List.rtakeWhile_suffix (fun r : Reception => !r.inSpeech) log).length_le
  unfold quietTail
  omega

theorem quietTail_concat_speech {r : Reception} (h : r.inSpeech = true) :
    quietTail n (log ++ [r]) = 0 := by
  simp [quietTail, h]

theorem quietTail_concat_quiet {r : Reception} (h : r.inSpeech = false) :
    quietTail n (log ++ [r]) =
      min n ((log.rtakeWhile (!·.inSpeech)).length + 1) := by
  simp [quietTail, h]

/-- A position is within the quiet tail when everything from it on is out of speech. -/
theorem quiet_drop_iff (log : List Reception) {i : ℕ} (inside : i ≤ log.length) :
    (∀ r ∈ log.drop i, r.inSpeech = false) ↔
      log.length - i ≤ (log.rtakeWhile (!·.inSpeech)).length := by
  induction log using List.reverseRecOn with
  | nil => simp
  | append_singleton log r ih =>
    by_cases last : i = log.length + 1
    · subst last
      simp
    have inside' : i ≤ log.length := by
      simp only [List.length_append, List.length_singleton] at inside
      omega
    rw [List.drop_append_of_le_length inside', List.rtakeWhile_concat]
    by_cases speech : r.inSpeech = true
    · simp only [speech, Bool.not_true, Bool.false_eq_true, if_false, List.length_nil,
        List.length_append, List.length_singleton]
      constructor
      · intro quiet
        have := quiet r (by simp)
        simp [speech] at this
      · omega
    · have quiet : r.inSpeech = false := by simpa using speech
      simp only [List.mem_append, List.mem_singleton, or_imp, forall_and, forall_eq, quiet,
        and_true, Bool.not_false, if_true, List.length_append, List.length_singleton, ih inside']
      omega

/-- One more packet keeps what was kept and, if it starts speech, the quiet tail. -/
theorem kept_concat {r : Reception} {i : ℕ} (inside : i < log.length) :
    Kept n (log ++ [r]) i ↔
      Kept n log i ∨ (r.starts = true ∧ log.length - quietTail n log ≤ i) := by
  have within : (∃ q ∈ (log ++ [r])[i]?, q.inSpeech = true) ↔
      ∃ q ∈ log[i]?, q.inSpeech = true := by
    rw [List.getElem?_append_left inside]
  have tail := quiet_drop_iff log (i := i) (by omega)
  unfold Kept
  rw [within]
  constructor
  · rintro (speech | ⟨d, bound, ⟨q, at_q, start⟩, quiet⟩)
    · exact Or.inl (Or.inl speech)
    by_cases old : i + d + 1 < log.length
    · rw [List.getElem?_append_left old] at at_q
      rw [List.drop_append_of_le_length (by omega), List.take_append_of_le_length
        (by rw [List.length_drop]; omega)] at quiet
      exact Or.inl (Or.inr ⟨d, bound, ⟨q, at_q, start⟩, quiet⟩)
    · have last : i + d + 1 = log.length := by
        obtain ⟨bounded, _⟩ := List.getElem?_eq_some_iff.mp at_q
        simp only [List.length_append, List.length_singleton] at bounded
        omega
      have same : q = r := by simpa [last, eq_comm] using at_q
      subst same
      rw [List.drop_append_of_le_length (by omega), List.take_append_of_le_length
        (by rw [List.length_drop]; omega), List.take_of_length_le
        (by rw [List.length_drop]; omega)] at quiet
      have run := tail.mp quiet
      exact Or.inr ⟨start, by unfold quietTail; omega⟩
  · rintro ((speech | ⟨d, bound, ⟨q, at_q, start⟩, quiet⟩) | ⟨start, near⟩)
    · exact Or.inl speech
    · have old : i + d + 1 < log.length := by
        obtain ⟨bounded, _⟩ := List.getElem?_eq_some_iff.mp at_q
        exact bounded
      refine Or.inr ⟨d, bound, ⟨q, ?_, start⟩, ?_⟩
      · rwa [List.getElem?_append_left old]
      · rwa [List.drop_append_of_le_length (by omega), List.take_append_of_le_length
          (by rw [List.length_drop]; omega)]
    · unfold quietTail at near
      refine Or.inr ⟨log.length - i - 1, by omega, ⟨r, ?_, start⟩, ?_⟩
      · have last : i + (log.length - i - 1) + 1 = log.length := by omega
        simp [last]
      · rw [List.drop_append_of_le_length (by omega), List.take_append_of_le_length
          (by rw [List.length_drop]; omega), List.take_of_length_le
          (by rw [List.length_drop]; omega)]
        exact tail.mpr (by omega)

/-- Nothing in the quiet tail is kept yet. -/
theorem not_kept_quietTail {i : ℕ} (near : log.length - quietTail n log ≤ i)
    (inside : i < log.length) : ¬Kept n log i := by
  have quiet := (quiet_drop_iff log (i := i) (by omega)).mpr
    (by unfold quietTail at near; omega)
  rintro (⟨r, at_i, speech⟩ | ⟨d, _, ⟨r, at_r, start⟩, _⟩)
  · have := quiet r (List.mem_of_getElem? (i := 0) (by simpa using at_i))
    simp [speech] at this
  · have := quiet r (List.mem_of_getElem? (i := d + 1) (by simpa [Nat.add_assoc] using at_r))
    simp only [Reception.starts, Reception.inSpeech] at start this
    simp_all

theorem kept_last {r : Reception} : Kept n (log ++ [r]) log.length ↔ r.inSpeech = true := by
  unfold Kept
  constructor
  · rintro (⟨q, at_q, speech⟩ | ⟨d, _, ⟨q, at_q, _⟩, _⟩)
    · simpa [show q = r by simpa [eq_comm] using at_q] using speech
    · obtain ⟨bounded, _⟩ := List.getElem?_eq_some_iff.mp at_q
      simp only [List.length_append, List.length_singleton] at bounded
      omega
  · intro speech
    exact Or.inl ⟨r, by simp, speech⟩

theorem range_split (a m : ℕ) (h : m ≤ a) :
    List.range a = List.range (a - m) ++ List.range' (a - m) m := by
  have total : a = a - m + m := by omega
  conv_lhs => rw [total, List.range_add]
  rw [List.range'_eq_map_range]

/-- The positions a packet adds to the kept ones. -/
theorem keptPositions_concat (r : Reception) :
    keptPositions n (log ++ [r]) = keptPositions n log ++
      (if r.starts then List.range' (log.length - quietTail n log) (quietTail n log) else []) ++
      (if r.inSpeech then [log.length] else []) := by
  have last : ([log.length].filter (Kept n (log ++ [r]) ·)) =
      if r.inSpeech then [log.length] else [] := by
    by_cases speech : r.inSpeech = true
    · simp [kept_last, speech]
    · simp [kept_last, speech]
  have earlier : (List.range log.length).filter (Kept n (log ++ [r]) ·) =
      keptPositions n log ++
        (if r.starts then List.range' (log.length - quietTail n log) (quietTail n log)
          else []) := by
    by_cases start : r.starts = true
    · have bound := quietTail_le_length n log
      have old : (List.range' (log.length - quietTail n log) (quietTail n log)).filter
          (Kept n log ·) = [] := by
        rw [List.filter_eq_nil_iff]
        intro i member
        have := List.mem_range'_1.mp member
        simpa using not_kept_quietTail (n := n) this.1 (by omega)
      rw [keptPositions, range_split log.length (quietTail n log) bound, List.filter_append,
        List.filter_append, old, List.append_nil, if_pos start]
      congr 1
      · refine List.filter_congr fun i member => ?_
        have := List.mem_range.mp member
        have far : ¬log.length - quietTail n log ≤ i := by omega
        simp [kept_concat (n := n) (show i < log.length by omega), far]
      · rw [List.filter_eq_self]
        intro i member
        have := List.mem_range'_1.mp member
        simp [kept_concat (n := n) (show i < log.length by omega), start, this.1]
    · rw [if_neg start, List.append_nil, keptPositions]
      refine List.filter_congr fun i member => ?_
      simp [kept_concat (n := n) (List.mem_range.mp member), start]
  rw [keptPositions, List.length_append, List.length_singleton, List.range_succ,
    List.filter_append, earlier, last]

theorem chunkAt_concat_of_lt {r : Reception} {i : ℕ} (inside : i < log.length) :
    chunkAt (log ++ [r]) i = chunkAt log i := by
  simp [chunkAt, List.getElem?_append_left inside]

theorem chunkAt_concat_last {r : Reception} : chunkAt (log ++ [r]) log.length = r.samples := by
  simp [chunkAt]

theorem map_chunkAt_tail {m : ℕ} (h : m ≤ log.length) :
    (List.range' (log.length - m) m).map (chunkAt log) =
      (log.drop (log.length - m)).map Reception.samples := by
  refine List.ext_getElem (by simp; omega) fun i left right => ?_
  simp only [List.length_map, List.length_range'] at left
  have inside : log.length - m + i < log.length := by omega
  simp [chunkAt, inside]

/-- The kept chunks in order. -/
def keptChunks (n : ℕ) (log : List Reception) : List (List UInt8) :=
  (keptPositions n log).map (chunkAt log)

/-- The chunks a start would find in the preroll. -/
def quietChunks (n : ℕ) (log : List Reception) : List (List UInt8) :=
  (log.drop (log.length - quietTail n log)).map Reception.samples

theorem keptChunks_concat (r : Reception) :
    keptChunks n (log ++ [r]) = keptChunks n log ++
      (if r.starts then quietChunks n log else []) ++ (if r.inSpeech then [r.samples] else []) := by
  have old (positions : List ℕ) (inside : ∀ i ∈ positions, i < log.length) :
      positions.map (chunkAt (log ++ [r])) = positions.map (chunkAt log) :=
    List.map_congr_left fun i member => chunkAt_concat_of_lt (inside i member)
  have bound := quietTail_le_length n log
  rw [keptChunks, keptPositions_concat, List.map_append, List.map_append, old _ ?kept]
  case kept =>
    intro i member
    exact List.mem_range.mp (List.mem_filter.mp member).1
  congr 1
  · congr 1
    by_cases start : r.starts = true
    · rw [if_pos start, if_pos start, old _ ?tail, map_chunkAt_tail bound]
      · rfl
      case tail =>
        intro i member
        have := List.mem_range'_1.mp member
        omega
    · simp [start]
  · by_cases speech : r.inSpeech = true
    · simp [speech, chunkAt_concat_last]
    · simp [speech]

theorem quietChunks_concat_speech {r : Reception} (h : r.inSpeech = true) :
    quietChunks n (log ++ [r]) = [] := by
  simp [quietChunks, quietTail_concat_speech h]

/-- Out of speech the quiet chunks move on like `_push_preroll`. -/
theorem quietChunks_concat_quiet {r : Reception} (h : r.inSpeech = false) :
    quietChunks n (log ++ [r]) =
      if n < (quietChunks n log).length + 1 then (quietChunks n log ++ [r.samples]).tail
      else quietChunks n log ++ [r.samples] := by
  have bound := quietTail_le_length n log
  have run := (List.rtakeWhile_suffix (fun r : Reception => !r.inSpeech) log).length_le
  have size : (quietChunks n log).length = quietTail n log := by
    simp [quietChunks]
    omega
  rw [size]
  unfold quietChunks
  rw [quietTail_concat_quiet h, List.length_append, List.length_singleton]
  have tail : quietTail n log = min n (log.rtakeWhile (!·.inSpeech)).length := rfl
  split
  · rename_i full
    have here : quietTail n log = n := by omega
    have next : log.length + 1 - min n ((log.rtakeWhile (!·.inSpeech)).length + 1) =
        log.length - quietTail n log + 1 := by omega
    rw [next, ← List.tail_drop, List.map_tail, List.drop_append_of_le_length (by omega)]
    simp
  · have next : log.length + 1 - min n ((log.rtakeWhile (!·.inSpeech)).length + 1) =
        log.length - quietTail n log := by omega
    rw [next, List.drop_append_of_le_length (by omega)]
    simp

end Positions

section Conservation

/-- The chunks of the open segment. -/
def openChunks (t : Track) : List (List UInt8) := (t.current.map OpenSegment.chunks).getD []

/-- `taken` is cut into the audio of `segments` and what stays open. -/
def Partitions (segments : List SpeechSegment) (taken left : List (List UInt8)) : Prop :=
  ∃ parts : List (List (List UInt8)), [] ∉ parts ∧ segments.map (·.audio) = parts.map List.flatten ∧
    taken = parts.flatten ++ left

theorem Move.conserves {ok : ℚ → Prop} {c : Str} {t u : Track} {chunks : List (List UInt8)}
    {effects : List Effect} (h : Move ok c t chunks effects u) :
    Partitions (finals effects) (openChunks t ++ chunks) (openChunks u) := by
  cases h with
  | opened n startTs chunks valid => exact ⟨[], by simp [finals, openChunks]⟩
  | extended n s chunk => exact ⟨[], by simp [finals, openChunks]⟩
  | shown n s segS nonempty => exact ⟨[], by simp [finals, openChunks]⟩
  | cut n s k chunkS pos inside nonneg =>
    have head : s.chunks.take k ≠ [] := by
      intro empty
      have short := congrArg List.length empty
      simp only [List.length_take, List.length_nil] at short
      omega
    exact ⟨[s.chunks.take k], by simpa using head.symm, by simp [finals], by simp [openChunks]⟩
  | closed n s endTs nonempty =>
    exact ⟨[s.chunks], by simpa using nonempty.symm, by simp [finals], by simp [openChunks]⟩

theorem Run.conserves {ok : ℚ → Prop} {c : Str} {t u : Track} {chunks : List (List UInt8)}
    {effects : List Effect} (h : Run ok c t chunks effects u) :
    Partitions (finals effects) (openChunks t ++ chunks) (openChunks u) := by
  induction h with
  | refl => exact ⟨[], by simp [finals]⟩
  | @tail u v chunks more effects later first move ih =>
    obtain ⟨parts, nonempty, audio, taken⟩ := ih
    obtain ⟨parts', nonempty', audio', taken'⟩ := Move.conserves move
    refine ⟨parts ++ parts', ?_, ?_, ?_⟩
    · simp only [List.mem_append, not_or]
      exact ⟨nonempty, nonempty'⟩
    · rw [finals_append, List.map_append, audio, audio', List.map_append]
    · rw [← List.append_assoc, taken, List.append_assoc, taken', List.flatten_append,
        List.append_assoc]

/-- A partition of mapped elements is a partition of the elements. -/
theorem map_eq_flatten {α β : Type*} {f : α → β} {l : List α} {parts : List (List β)}
    (h : l.map f = parts.flatten) :
    ∃ lifted : List (List α), lifted.flatten = l ∧ lifted.map (List.map f) = parts := by
  induction parts generalizing l with
  | nil => exact ⟨[], by simpa using h.symm, rfl⟩
  | cons part parts ih =>
    rw [List.flatten_cons] at h
    obtain ⟨first, rest, rfl, here, later⟩ := List.map_eq_append_iff.mp h
    obtain ⟨lifted, whole, cut⟩ := ih later
    exact ⟨first :: lifted, by simp [whole], by simp [here, cut]⟩

theorem Partitions.conserved {n : ℕ} {log : List Reception} {segments : List SpeechSegment}
    (h : Partitions segments (keptChunks n log) []) :
    Conserved n log (segments.map (·.audio)) := by
  obtain ⟨parts, nonempty, audio, taken⟩ := h
  rw [List.append_nil] at taken
  obtain ⟨lifted, whole, cut⟩ := map_eq_flatten taken
  refine ⟨lifted, ?_, whole, ?_⟩
  · intro empty
    have : [] ∈ lifted.map (List.map (chunkAt log)) := List.mem_map.mpr ⟨[], empty, rfl⟩
    exact nonempty (cut ▸ this)
  · rw [audio, ← cut]
    simp [List.flatMap_def, Function.comp_def]

end Conservation

section Ledger

variable {σ : Type} (cfg : VADWorkerConfig) (it : VADIterator σ)

/-- What the channel received in one event, if the event is one of its packets. -/
def reception (keys : ChannelKeys) (c : Str) (channels : Channels σ) (event : VadEvent) :
    List Reception :=
  match event with
  | .packet packet _ =>
    if packet.channelId = c then
      [{ samples := packet.samples
         rejected := raises cfg it packet (channels c)
         before := it.triggered (channels c).vadIter
         after := it.triggered ((workerStep cfg it keys channels event).1 c).vadIter }]
    else []
  | _ => []

def receptions (keys : ChannelKeys) (c : Str) : Channels σ → List VadEvent → List Reception
  | _, [] => []
  | channels, event :: events =>
    reception cfg it keys c channels event ++
      receptions keys c (workerStep cfg it keys channels event).1 events

/-- The packets `_handle_packet` did not raise on. -/
def heard (log : List Reception) : List Reception := log.filter (!·.rejected)

variable {cfg it}

/-- Conservation asks nothing of the timestamps. -/
abbrev anyTime : ℚ → Prop := fun _ => True

/-- The channel has put exactly the kept chunks of its log into segments, and holds
the quiet ones in its preroll. -/
structure Ledger (cfg : VADWorkerConfig) (it : VADIterator σ) (c : Str) (log : List Reception)
    (effects : List Effect) (state : ChannelState σ) : Prop where
  coherent : Coherent anyTime cfg it state
  kept : Run anyTime c ⟨0, none⟩ (keptChunks cfg.prerollChunks.toNat log) effects (track state)
  quiet : state.preroll.map Prod.snd = quietChunks cfg.prerollChunks.toNat log

theorem Ledger.fresh (c : Str) (iterators : Str → σ) :
    Ledger cfg it c [] [] (freshChannels it iterators c) :=
  ⟨freshChannels_coherent anyTime cfg it iterators c, Run.refl _, by
    simp [freshChannels, quietChunks]⟩

theorem Ledger.flushed {c : Str} {log : List Reception} {effects : List Effect}
    {state : ChannelState σ} (h : Ledger cfg it c log effects state) :
    Ledger cfg it c log (effects ++ (flushChannel cfg it c state).2)
      (flushChannel cfg it c state).1 := by
  obtain ⟨run, coherent, preroll, _⟩ := flushChannel_run c h.coherent
  exact ⟨coherent, by simpa using h.kept.trans run, by rw [preroll, h.quiet]⟩

theorem pushPreroll_quiet {log : List Reception} (packet : AudioPacket) {state : ChannelState σ}
    {r : Reception} (same : r.samples = packet.samples) (outside : r.inSpeech = false)
    (h : state.preroll.map Prod.snd = quietChunks cfg.prerollChunks.toNat log) :
    (pushPreroll cfg packet state).preroll.map Prod.snd =
      quietChunks cfg.prerollChunks.toNat (log ++ [r]) := by
  have size : state.preroll.length = (quietChunks cfg.prerollChunks.toNat log).length := by
    rw [← h, List.length_map]
  have full : cfg.prerollChunks <
      ((state.preroll ++ [(packet.timestamp, packet.samples)]).length : ℤ) ↔
      cfg.prerollChunks.toNat < (quietChunks cfg.prerollChunks.toNat log).length + 1 := by
    rw [List.length_append, List.length_singleton, size]
    omega
  rw [quietChunks_concat_quiet outside, ← h, same]
  simp only [pushPreroll, full]
  by_cases long : cfg.prerollChunks.toNat < (quietChunks cfg.prerollChunks.toNat log).length + 1
  · rw [if_pos long, if_pos (by rwa [h]), List.map_tail, List.map_append]
    rfl
  · rw [if_neg long, if_neg (by rwa [h]), List.map_append]
    rfl

/-- One packet of the channel, entered in the log unless it raised. -/
theorem Ledger.packet {c : Str} {log : List Reception} {effects : List Effect}
    {state : ChannelState σ} (h : Ledger cfg it c log effects state) (packet : AudioPacket)
    (now : ℚ) (own : packet.channelId = c) (r : Reception) (samples : r.samples = packet.samples)
    (rejected : r.rejected = raises cfg it packet state)
    (before : r.before = it.triggered state.vadIter)
    (after : r.after = it.triggered (handlePacket cfg it packet now state).1.vadIter) :
    Ledger cfg it c (log ++ heard [r]) (effects ++ (handlePacket cfg it packet now state).2)
      (handlePacket cfg it packet now state).1 := by
  subst own
  obtain ⟨outcome, coherent⟩ := handlePacket_cases packet now h.coherent trivial
  rw [← h.coherent.iterator] at before
  rw [← coherent.iterator] at after
  cases outcome with
  | raised lost silent same preroll still =>
    rw [lost] at rejected
    have dropped : log ++ heard [r] = log := by simp [heard, rejected]
    rw [dropped, silent, List.append_nil]
    exact ⟨coherent, by rw [same]; exact h.kept, by rw [preroll, h.quiet]⟩
  | outOfSpeech accepted quiet calm silent same preroll =>
    rw [accepted] at rejected
    rw [quiet] at before
    rw [calm] at after
    have entered : heard [r] = [r] := by simp [heard, rejected]
    have outside : r.inSpeech = false := by simp [Reception.inSpeech, before, after]
    have noStart : r.starts = false := by simp [Reception.starts, after]
    rw [entered, silent, List.append_nil]
    refine ⟨coherent, ?_, ?_⟩
    · rw [keptChunks_concat, outside, noStart, same]
      simpa using h.kept
    · rw [preroll]
      exact pushPreroll_quiet packet samples outside h.quiet
  | started accepted quiet loud run preroll =>
    rw [accepted] at rejected
    rw [quiet] at before
    rw [loud] at after
    have entered : heard [r] = [r] := by simp [heard, rejected]
    have inside : r.inSpeech = true := by simp [Reception.inSpeech, after]
    have start : r.starts = true := by simp [Reception.starts, before, after]
    rw [entered]
    refine ⟨coherent, ?_, ?_⟩
    · rw [keptChunks_concat, inside, start, samples, ← h.quiet]
      simpa using h.kept.trans run
    · rw [preroll, quietChunks_concat_speech inside]
      rfl
  | inSpeech accepted speaking run preroll =>
    rw [accepted] at rejected
    rw [speaking] at before
    have entered : heard [r] = [r] := by simp [heard, rejected]
    have inside : r.inSpeech = true := by simp [Reception.inSpeech, before]
    have noStart : r.starts = false := by simp [Reception.starts, before]
    rw [entered]
    refine ⟨coherent, ?_, ?_⟩
    · rw [keptChunks_concat, inside, noStart, samples]
      simpa using h.kept.trans run
    · rw [preroll, quietChunks_concat_speech inside]
      rfl

/-- One event of the worker keeps every configured channel's ledger. -/
theorem Ledger.step (keys : ChannelKeys) {c : Str} (configured : c ∈ keys.val)
    {channels : Channels σ} {log : List Reception} {effects : List Effect}
    (h : Ledger cfg it c log effects (channels c)) (event : VadEvent) :
    Ledger cfg it c (log ++ heard (reception cfg it keys c channels event))
      (effects ++ effectsOn c (workerStep cfg it keys channels event).2)
      ((workerStep cfg it keys channels event).1 c) := by
  have whole := workerStep_channel cfg it keys channels event configured
  have next := congrArg Prod.fst whole
  have out := congrArg Prod.snd whole
  simp only at next out
  rw [next, out]
  cases event with
  | packet packet now =>
    by_cases own : packet.channelId = c
    · have received : reception cfg it keys c channels (.packet packet now) =
          [{ samples := packet.samples, rejected := raises cfg it packet (channels c),
             before := it.triggered (channels c).vadIter,
             after := it.triggered (handlePacket cfg it packet now (channels c)).1.vadIter }] := by
        rw [reception, if_pos own, next]
        simp [concerns, own, channelStep]
      rw [received]
      simp only [concerns, own, decide_true, if_true, channelStep]
      exact h.packet packet now own _ rfl rfl rfl rfl
    · simpa [concerns, own, reception, heard] using h
  | idleCheck now =>
    simp only [concerns, if_true, channelStep, reception, heard, List.filter_nil, List.append_nil]
    split
    · simpa using h
    split
    · exact h.flushed
    · simpa using h
  | flush =>
    simpa only [concerns, if_true, channelStep, reception, heard, List.filter_nil,
      List.append_nil] using h.flushed

theorem Ledger.run (keys : ChannelKeys) {c : Str} (configured : c ∈ keys.val)
    (events : List VadEvent) {channels : Channels σ} {log : List Reception}
    {effects : List Effect} (h : Ledger cfg it c log effects (channels c)) :
    Ledger cfg it c (log ++ heard (receptions cfg it keys c channels events))
      (effects ++ effectsOn c (outputs (workerStep cfg it keys) channels events).2)
      ((outputs (workerStep cfg it keys) channels events).1 c) := by
  induction events generalizing channels log effects with
  | nil => simpa [receptions, heard] using h
  | cons event events ih =>
    have later := ih (h.step keys configured event)
    simpa [receptions, heard, List.append_assoc] using later

/-- A flush leaves nothing in an open segment. -/
theorem flushChannel_closed (c : Str) {state : ChannelState σ} (h : Coherent anyTime cfg it state) :
    openChunks (track (flushChannel cfg it c state).1) = [] := by
  by_cases speaking : state.triggered = true
  · obtain ⟨startTs, segmentId, hs, hi⟩ := h.open speaking
    by_cases empty : state.segmentChunks = []
    · simp [flushChannel, hs, empty, track_open hs hi, openChunks]
    · simp [flushChannel, hs, empty, finalizeSegment, segmentIdOrNew, hi, track, openChunks]
  · have hs := (h.closed (by simpa using speaking)).1
    simp [flushChannel, hs, track, openChunks]

variable (cfg it)

/-- Every run of the worker that ends in a flush: on each configured channel the
finals are the received chunks that were not rejected, restricted to speech and
preroll, and cuts only partition them. -/
theorem finals_conserve_audio (keys : ChannelKeys) (iterators : Str → σ)
    (events : List VadEvent) {c : Str} (configured : c ∈ keys.val) :
    Conserved cfg.prerollChunks.toNat
      (heard (receptions cfg it keys c (freshChannels it iterators) (events ++ [.flush])))
      ((finals (effectsOn c (outputs (workerStep cfg it keys) (freshChannels it iterators)
        (events ++ [.flush])).2)).map (·.audio)) := by
  have fresh : Ledger cfg it c [] [] (freshChannels it iterators c) := Ledger.fresh c iterators
  have before := fresh.run keys configured events
  have ledger := fresh.run keys configured (events ++ [.flush])
  have partition := Run.conserves ledger.kept
  have flushed : openChunks (track ((outputs (workerStep cfg it keys)
      (freshChannels it iterators) (events ++ [.flush])).1 c)) = [] := by
    have last := workerStep_channel cfg it keys
      (outputs (workerStep cfg it keys) (freshChannels it iterators) events).1 .flush configured
    have state := congrArg Prod.fst last
    simp only [concerns, if_true, channelStep] at state
    rw [outputs_append]
    simp only [outputs_cons, outputs_nil]
    rw [state]
    exact flushChannel_closed c before.coherent
  rw [flushed] at partition
  exact Partitions.conserved (by simpa [openChunks] using partition)

end Ledger

section OddPacket

/-- A start, a packet of one byte that int16 cannot hold, and the end. -/
def oddPacketRun : List VadEvent :=
  [.packet ⟨['r'], 0, [1, 0]⟩ 0, .packet ⟨['r'], 1, [7]⟩ 1, .packet ⟨['r'], 2, [0, 0]⟩ 2]

theorem oddPacket_heard_conserved :
    Conserved ungated.prerollChunks.toNat
      (heard (receptions ungated levelIterator channelR ['r']
        (freshChannels levelIterator fun _ => false) (oddPacketRun ++ [.flush])))
      ((finals (effectsOn ['r'] (outputs (workerStep ungated levelIterator channelR)
        (freshChannels levelIterator fun _ => false) (oddPacketRun ++ [.flush])).2)).map
          (·.audio)) :=
  finals_conserve_audio ungated levelIterator channelR (fun _ => false) oddPacketRun (by decide)

/-- The rejected packet was received in speech and is in no final. -/
theorem oddPacket_not_conserved :
    ¬Conserved ungated.prerollChunks.toNat
      (receptions ungated levelIterator channelR ['r']
        (freshChannels levelIterator fun _ => false) (oddPacketRun ++ [.flush]))
      ((finals (effectsOn ['r'] (outputs (workerStep ungated levelIterator channelR)
        (freshChannels levelIterator fun _ => false) (oddPacketRun ++ [.flush])).2)).map
          (·.audio)) := by
  intro conserved
  have bytes := conserved.flatten
  revert bytes
  decide +kernel

end OddPacket

end EdgeVoice.AudioLedger
