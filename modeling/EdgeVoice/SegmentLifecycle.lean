import EdgeVoice.VadTrack
import EdgeVoice.SttWorker

/-! The life of a segment id. On a channel's queue the items of one id are
consecutive, partials first and at most one final last, all from one start; ids are
never reused, on any channel. Both survive dropped items and any decode outcome. -/

namespace EdgeVoice.SegmentLifecycle
open PythonText Models VadWorker VadTrack SttWorker StepSystem

/-- The ids minted, in order. -/
def mintedIds (effects : List Effect) : List Str :=
  effects.filterMap fun
    | .minted segmentId => some segmentId
    | _ => none

/-- The segments put on the segment queue, partials and finals, in order. -/
def puts (effects : List Effect) : List SpeechSegment :=
  effects.filterMap fun
    | .minted _ => none
    | .putNowait segment => some segment
    | .fanoutPut segment => some segment

@[simp] theorem mintedIds_append (effects later : List Effect) :
    mintedIds (effects ++ later) = mintedIds effects ++ mintedIds later := by
  simp [mintedIds]

@[simp] theorem puts_append (effects later : List Effect) :
    puts (effects ++ later) = puts effects ++ puts later := by
  simp [puts]

/-- `[a, b, c].Sublist queue` says that `a`, `b` and `c` stand in this order. -/
structure Lifecycle (queue : List SpeechSegment) : Prop where
  contiguous : ∀ a b c, [a, b, c].Sublist queue → a.segmentId = c.segmentId →
    b.segmentId = a.segmentId
  shape : queue.Pairwise fun a b =>
    a.segmentId = b.segmentId → a.isPartial = true ∧ a.start = b.start

theorem Lifecycle.sublist {queue items : List SpeechSegment} (h : Lifecycle items)
    (kept : queue.Sublist items) : Lifecycle queue :=
  ⟨fun a b c order => h.contiguous a b c (order.trans kept), h.shape.sublist kept⟩

/-- One more item, of an id whose earlier items are partials of its start and have
only items of that id after them. -/
theorem Lifecycle.concat {queue : List SpeechSegment} {item : SpeechSegment} (h : Lifecycle queue)
    (earlier : ∀ a ∈ queue, a.segmentId = item.segmentId →
      a.isPartial = true ∧ a.start = item.start)
    (tail : queue.Pairwise fun a b => a.segmentId = item.segmentId →
      b.segmentId = item.segmentId) : Lifecycle (queue ++ [item]) := by
  refine ⟨fun a b c order same => ?_, ?_⟩
  · obtain ⟨front, back, split, inFront, inBack⟩ := List.sublist_append_iff.mp order
    have short : back.length ≤ 1 := by simpa using inBack.length_le
    match back, short with
    | [], _ =>
      rw [List.append_nil] at split
      exact h.contiguous a b c (split ▸ inFront) same
    | [x], _ =>
      have last : x = item := List.mem_singleton.mp (List.singleton_sublist.mp inBack)
      have pieces : [a, b] ++ [c] = front ++ [x] := by simpa using split
      obtain ⟨rfl, ends⟩ := List.append_inj' pieces rfl
      have final : c = item := by rw [← last]; simpa using ends
      subst final
      exact (List.pairwise_iff_forall_sublist.mp tail inFront same).trans same.symm
  · rw [List.pairwise_append]
    refine ⟨h.shape, List.pairwise_singleton _ _, fun a member b new => ?_⟩
    rw [List.mem_singleton.mp new]
    exact earlier a member

/-- What a channel has emitted after minting `n` ids. -/
structure Emitted (c : Str) (n : ℕ) (effects : List Effect) : Prop where
  ids : ∃ times : List ℚ, (∀ t ∈ times, 0 ≤ t) ∧ times.length = n ∧
    mintedIds effects = times.mapIdx fun k t => segmentIdText c t (k + 1)
  known : ∀ item ∈ puts effects, item.channelId = c ∧ item.segmentId ∈ mintedIds effects
  lifecycle : Lifecycle (puts effects)

/-- How the emitted items relate to the open segment. -/
structure Speaking (effects : List Effect) (s : OpenSegment) : Prop where
  nonneg : 0 ≤ s.startTs
  minted : s.segmentId ∈ mintedIds effects
  shown : ∀ item ∈ puts effects, item.segmentId = s.segmentId →
    item.isPartial = true ∧ item.start = s.startTs
  tail : (puts effects).Pairwise fun a b =>
    a.segmentId = s.segmentId → b.segmentId = s.segmentId

theorem segmentIdText_counter {c : Str} {t u : ℚ} {m n : ℕ}
    (same : segmentIdText c t m = segmentIdText c u n) : m = n :=
  decimal_injective (append_sep_inj (dash_notMem_decimal m) (dash_notMem_decimal n) same).2

theorem segmentIdText_channel {c d : Str} {t u : ℚ} {m n : ℕ} (ht : 0 ≤ t) (hu : 0 ≤ u)
    (same : segmentIdText c t m = segmentIdText d u n) : c = d := by
  have front := (append_sep_inj (dash_notMem_decimal m) (dash_notMem_decimal n) same).1
  exact (append_sep_inj (dash_notMem_fixed3 ht) (dash_notMem_fixed3 hu) front).1

section Channel

variable {c : Str} {n : ℕ} {effects : List Effect}

theorem Emitted.fresh (h : Emitted c n effects) (t : ℚ) :
    segmentIdText c t (n + 1) ∉ mintedIds effects := by
  obtain ⟨times, _, length, ids⟩ := h.ids
  rw [ids]
  intro member
  obtain ⟨k, inside, same⟩ := List.mem_mapIdx.mp member
  have counter := segmentIdText_counter same
  omega

theorem Emitted.nodup (h : Emitted c n effects) : (mintedIds effects).Nodup := by
  obtain ⟨times, _, _, ids⟩ := h.ids
  rw [ids, List.nodup_iff_pairwise_ne, List.pairwise_iff_getElem]
  intro i j hi hj before same
  simp only [List.getElem_mapIdx] at same
  have counter := segmentIdText_counter same
  omega

theorem Emitted.mint (h : Emitted c n effects) {t : ℚ} (nonneg : 0 ≤ t)
    (chunks : List (List UInt8)) :
    Emitted c (n + 1) (effects ++ [.minted (segmentIdText c t (n + 1))]) ∧
      Speaking (effects ++ [.minted (segmentIdText c t (n + 1))])
        ⟨t, segmentIdText c t (n + 1), chunks⟩ := by
  have fresh := h.fresh t
  have unseen : ∀ item ∈ puts effects, item.segmentId ≠ segmentIdText c t (n + 1) :=
    fun item member same => fresh (same ▸ (h.known item member).2)
  have items : puts (effects ++ [.minted (segmentIdText c t (n + 1))]) = puts effects := by
    simp [puts]
  have ids : mintedIds (effects ++ [.minted (segmentIdText c t (n + 1))]) =
      mintedIds effects ++ [segmentIdText c t (n + 1)] := by
    simp [mintedIds]
  refine ⟨⟨?_, ?_, ?_⟩, ⟨nonneg, ?_, ?_, ?_⟩⟩
  · obtain ⟨times, all, length, old⟩ := h.ids
    refine ⟨times ++ [t], ?_, by simp [length], ?_⟩
    · intro u member
      rcases List.mem_append.mp member with old | new
      · exact all u old
      · rwa [List.mem_singleton.mp new]
    · rw [ids, old, List.mapIdx_concat, length]
  · intro item member
    rw [items] at member
    rw [ids]
    exact ⟨(h.known item member).1, List.mem_append_left _ (h.known item member).2⟩
  · rw [items]
    exact h.lifecycle
  · rw [ids]
    simp
  · intro item member same
    rw [items] at member
    exact absurd same (unseen item member)
  · rw [items]
    exact List.pairwise_of_forall_mem_list fun a member b _ same =>
      absurd same (unseen a member)

/-- A put of the open segment, whether partial or final. -/
theorem Emitted.put {s : OpenSegment} (h : Emitted c n effects) (speaking : Speaking effects s)
    (item : SpeechSegment) (effect : Effect) (channel : item.channelId = c)
    (id : item.segmentId = s.segmentId) (start : item.start = s.startTs)
    (one : puts [effect] = [item]) (silent : mintedIds [effect] = []) :
    Emitted c n (effects ++ [effect]) := by
  have ids : mintedIds (effects ++ [effect]) = mintedIds effects := by simp [silent]
  refine ⟨by rw [ids]; exact h.ids, ?_, ?_⟩
  · intro other member
    rw [puts_append, one, List.mem_append, List.mem_singleton] at member
    rw [ids]
    rcases member with old | rfl
    · exact h.known other old
    · exact ⟨channel, id ▸ speaking.minted⟩
  · rw [puts_append, one]
    refine h.lifecycle.concat ?_ ?_
    · rw [id, start]
      exact speaking.shown
    · rw [id]
      exact speaking.tail

/-- After a partial the segment is still open. -/
theorem Speaking.put {s : OpenSegment} (h : Speaking effects s) (item : SpeechSegment)
    (effect : Effect) (id : item.segmentId = s.segmentId) (start : item.start = s.startTs)
    (throwaway : item.isPartial = true) (one : puts [effect] = [item])
    (silent : mintedIds [effect] = []) : Speaking (effects ++ [effect]) s := by
  refine ⟨h.nonneg, by simpa [silent] using h.minted, ?_, ?_⟩
  · intro other member same
    rw [puts_append, one, List.mem_append, List.mem_singleton] at member
    rcases member with old | rfl
    · exact h.shown other old same
    · exact ⟨throwaway, start⟩
  · rw [puts_append, one, List.pairwise_append]
    refine ⟨h.tail, List.pairwise_singleton _ _, fun a _ b new _ => ?_⟩
    rw [List.mem_singleton.mp new, id]

theorem Speaking.extend {s : OpenSegment} (h : Speaking effects s) (chunks : List (List UInt8)) :
    Speaking effects { s with chunks := chunks } :=
  ⟨h.nonneg, h.minted, h.shown, h.tail⟩

/-- The emitted items and the open segment of a track. -/
def Protocol (c : Str) (effects : List Effect) (u : Track) : Prop :=
  Emitted c u.minted effects ∧ ∀ s ∈ u.current, Speaking effects s

theorem Protocol.move {u v : Track} {chunks : List (List UInt8)} {later : List Effect}
    (h : Protocol c effects u) (move : Move (0 ≤ ·) c u chunks later v) :
    Protocol c (effects ++ later) v := by
  obtain ⟨emitted, current⟩ := h
  cases move with
  | opened n startTs chunks valid =>
    obtain ⟨emitted, speaking⟩ := emitted.mint valid chunks
    exact ⟨emitted, by simpa using speaking⟩
  | extended n s chunk =>
    have speaking := current s rfl
    rw [List.append_nil]
    exact ⟨emitted, by simpa using speaking.extend _⟩
  | shown n s segS nonempty =>
    have speaking := current s rfl
    have still := speaking.put
      ⟨c, s.startTs, s.startTs + segS, s.chunks.flatten, s.segmentId, true⟩ (.putNowait _)
      rfl rfl rfl rfl rfl
    exact ⟨emitted.put speaking _ _ rfl rfl rfl rfl rfl, by simpa using still⟩
  | cut n s k chunkS pos inside nonneg =>
    have speaking := current s rfl
    have closed := emitted.put speaking
      ⟨c, s.startTs, s.startTs + k * chunkS, (s.chunks.take k).flatten, s.segmentId, false⟩
      (.fanoutPut _) rfl rfl rfl rfl rfl
    have later : (0 : ℚ) ≤ s.startTs + k * chunkS := by
      have := speaking.nonneg
      positivity
    obtain ⟨emitted, speaking⟩ := closed.mint later (s.chunks.drop k)
    rw [List.append_assoc] at emitted speaking
    exact ⟨emitted, by simpa using speaking⟩
  | closed n s endTs nonempty =>
    have speaking := current s rfl
    exact ⟨emitted.put speaking _ _ rfl rfl rfl rfl rfl, by simp⟩

theorem Protocol.run {u : Track} {chunks : List (List UInt8)}
    (run : Run (0 ≤ ·) c ⟨0, none⟩ chunks effects u) : Protocol c effects u := by
  induction run with
  | refl =>
    refine ⟨⟨⟨[], by simp, rfl, rfl⟩, by simp [puts], ?_⟩, by simp⟩
    refine ⟨fun a b d order => ?_, ?_⟩
    · simp [puts] at order
    · simp [puts]
  | tail _ move ih => exact ih.move move

end Channel

section Worker

/-- Tagged values stand in a relation when they do within each tag and across tags. -/
theorem pairwise_of_classes {κ α : Type*} [DecidableEq κ] {R : α → α → Prop} {l : List (κ × α)}
    (each : ∀ k, ((l.filter (·.1 = k)).map Prod.snd).Pairwise R)
    (apart : ∀ k k' a b, (k, a) ∈ l → (k', b) ∈ l → k ≠ k' → R a b) :
    (l.map Prod.snd).Pairwise R := by
  rw [List.pairwise_iff_forall_sublist]
  intro a b order
  obtain ⟨pair, inside, values⟩ := List.sublist_map_iff.mp order
  match pair, values with
  | [(k, x), (k', y)], values =>
    simp only [List.map_cons, List.map_nil, List.cons.injEq, and_true] at values
    obtain ⟨rfl, rfl⟩ := values
    by_cases same : k = k'
    · subst same
      have sameClass := (inside.filter (·.1 = k)).map Prod.snd
      simp only [decide_true, List.filter_cons_of_pos, List.filter_nil, List.map_cons,
        List.map_nil] at sameClass
      exact List.pairwise_iff_forall_sublist.mp (each k) sameClass
    · exact apart k k' a b (inside.subset (by simp)) (inside.subset (by simp)) same

/-- Tagged values are distinct when they are within each tag and no value has two tags. -/
theorem nodup_of_classes {κ α : Type*} [DecidableEq κ] {l : List (κ × α)}
    (each : ∀ k, ((l.filter (·.1 = k)).map Prod.snd).Nodup)
    (apart : ∀ k k' a, (k, a) ∈ l → (k', a) ∈ l → k = k') : (l.map Prod.snd).Nodup := by
  apply pairwise_of_classes each
  rintro k k' a _ first second other rfl
  exact other (apart k k' a first second)

/-- The ids minted over all channels, each with its channel. -/
def mintLog (effects : List (Str × Effect)) : List (Str × Str) :=
  effects.filterMap fun e =>
    match e.2 with
    | .minted segmentId => some (e.1, segmentId)
    | _ => none

theorem mintLog_ids (effects : List (Str × Effect)) :
    (mintLog effects).map Prod.snd = mintedIds (effects.map Prod.snd) := by
  rw [mintLog, mintedIds, List.map_filterMap, List.filterMap_map]
  congr 1
  funext e
  obtain ⟨c, effect⟩ := e
  cases effect <;> rfl

theorem mintLog_channel (c : Str) (effects : List (Str × Effect)) :
    ((mintLog effects).filter (·.1 = c)).map Prod.snd = mintedIds (effectsOn c effects) := by
  induction effects with
  | nil => rfl
  | cons e effects ih =>
    obtain ⟨d, effect⟩ := e
    by_cases same : d = c <;> cases effect <;>
      simp_all [mintLog, mintedIds, effectsOn]

variable {σ : Type} (cfg : VADWorkerConfig) (it : VADIterator σ)

/-- On every channel, configured or not, the effects of a run follow the protocol. -/
theorem worker_protocol (keys : ChannelKeys) (iterators : Str → σ) (events : List VadEvent)
    (nonneg : ∀ packet now, .packet packet now ∈ events → 0 ≤ packet.timestamp) (c : Str) :
    ∃ u, Protocol c (effectsOn c
      (outputs (workerStep cfg it keys) (freshChannels it iterators) events).2) u := by
  by_cases configured : c ∈ keys.val
  · obtain ⟨⟨chunks, run⟩, _⟩ :=
      worker_run (0 ≤ ·) cfg it keys iterators configured events nonneg
    exact ⟨_, Protocol.run run⟩
  · rw [worker_unconfigured cfg it keys iterators configured events]
    exact ⟨_, Protocol.run (Run.refl _)⟩

/-- No two segments of a run share an id, on whatever channels they are. -/
theorem worker_ids_nodup (keys : ChannelKeys) (iterators : Str → σ) (events : List VadEvent)
    (nonneg : ∀ packet now, .packet packet now ∈ events → 0 ≤ packet.timestamp) :
    (mintedIds ((outputs (workerStep cfg it keys) (freshChannels it iterators)
      events).2.map Prod.snd)).Nodup := by
  have protocol := worker_protocol cfg it keys iterators events nonneg
  generalize (outputs (workerStep cfg it keys) (freshChannels it iterators) events).2 = effects
    at protocol
  have text (c id : Str) (member : (c, id) ∈ mintLog effects) :
      ∃ t n, (0 : ℚ) ≤ t ∧ id = segmentIdText c t n := by
    obtain ⟨u, emitted, _⟩ := protocol c
    obtain ⟨times, all, _, ids⟩ := emitted.ids
    have minted : id ∈ mintedIds (effectsOn c effects) := by
      rw [← mintLog_channel]
      exact List.mem_map.mpr ⟨(c, id), List.mem_filter.mpr ⟨member, by simp⟩, rfl⟩
    rw [ids] at minted
    obtain ⟨k, inside, same⟩ := List.mem_mapIdx.mp minted
    exact ⟨times[k], k + 1, all _ (List.getElem_mem _), same.symm⟩
  rw [← mintLog_ids]
  refine nodup_of_classes (fun c => ?_) fun c d id first second => ?_
  · obtain ⟨u, emitted, _⟩ := protocol c
    rw [mintLog_channel]
    exact emitted.nodup
  · obtain ⟨t, m, ht, here⟩ := text c id first
    obtain ⟨u, n, hu, there⟩ := text d id second
    exact segmentIdText_channel ht hu (here.symm.trans there)

/-- A queue that follows the lifecycle leads to events with nothing after a final. -/
theorem Lifecycle.events {τ : Type} {queue : List SpeechSegment} (h : Lifecycle queue)
    (stt : STTWorkerConfig) (tr : Transcriber τ) (state : SttState τ) (turns : List Turn)
    (handled : turns.map Turn.segment = queue) :
    (outputs (sttStep stt tr) state turns).2.Pairwise fun a b =>
      a.segmentId = b.segmentId → a.isFinal = false := by
  have tags : (turns.map fun t => (t.segment.segmentId, !t.segment.isPartial)).Pairwise
      fun a b => a.1 = b.1 → a.2 = false := by
    have shape := h.shape
    rw [← handled, List.pairwise_map] at shape
    rw [List.pairwise_map]
    exact shape.imp fun once same => by simp [(once same).1]
  have published := tags.sublist (events_sublist_turns stt tr state turns)
  rwa [List.pairwise_map] at published

/-- Every run of the worker: ids are distinct over all channels, and whatever part of
a channel's puts gets through its queue follows the lifecycle, as do the events that
come out of the channel's STT worker. -/
theorem segment_lifecycle (keys : ChannelKeys) (iterators : Str → σ) (events : List VadEvent)
    (nonneg : ∀ packet now, .packet packet now ∈ events → 0 ≤ packet.timestamp) :
    let effects := (outputs (workerStep cfg it keys) (freshChannels it iterators) events).2
    (mintedIds (effects.map Prod.snd)).Nodup ∧
      ∀ c,
        (∀ item ∈ puts (effectsOn c effects),
          item.channelId = c ∧ item.segmentId ∈ mintedIds (effectsOn c effects)) ∧
        ∀ queue : List SpeechSegment, queue.Sublist (puts (effectsOn c effects)) →
          Lifecycle queue ∧
          ∀ {τ : Type} (stt : STTWorkerConfig) (tr : Transcriber τ) (state : SttState τ)
            (turns : List Turn), turns.map Turn.segment = queue →
            (outputs (sttStep stt tr) state turns).2.Pairwise fun a b =>
              a.segmentId = b.segmentId → a.isFinal = false := by
  intro effects
  refine ⟨worker_ids_nodup cfg it keys iterators events nonneg, fun c => ?_⟩
  obtain ⟨u, emitted, _⟩ := worker_protocol cfg it keys iterators events nonneg c
  refine ⟨emitted.known, fun queue through => ?_⟩
  have lifecycle := emitted.lifecycle.sublist through
  exact ⟨lifecycle, fun stt tr state turns handled =>
    lifecycle.events stt tr state turns handled⟩

end Worker

section TwoChannels

/-- Partials after every continued chunk, cuts after every three. -/
def eager : VADWorkerConfig :=
  { ungated with
    segmentLimitsEnabled := true, softCutEnabled := false, maxSegmentS := 3 / 16000
    partialIntervalS := 1 / 16000, partialMinSegmentS := 0 }

def channelsRT : ChannelKeys := ⟨[['r'], ['t']], by decide⟩

def twoChannelRun : List VadEvent :=
  [.packet ⟨['r'], 0, [1, 0]⟩ 0, .packet ⟨['t'], 0, [1, 0]⟩ 0, .packet ⟨['r'], 1, [1, 0]⟩ 1,
    .packet ⟨['r'], 2, [1, 0]⟩ 2, .packet ⟨['t'], 1, [0, 0]⟩ 2, .flush]

def twoChannelEffects : List (Str × Effect) :=
  (outputs (workerStep eager levelIterator channelsRT)
    (freshChannels levelIterator fun _ => false) twoChannelRun).2

example : (puts (effectsOn ['r'] twoChannelEffects)).map (·.isPartial) = [true, false] := by
  decide +kernel

theorem twoChannels_lifecycle :
    (mintedIds (twoChannelEffects.map Prod.snd)).Nodup ∧
      Lifecycle (puts (effectsOn ['r'] twoChannelEffects)) := by
  have all := segment_lifecycle eager levelIterator channelsRT (fun _ => false) twoChannelRun
    (by
      intro packet now member
      simp only [twoChannelRun, List.mem_cons, VadEvent.packet.injEq, List.not_mem_nil,
        reduceCtorEq, or_false] at member
      rcases member with ⟨rfl, _⟩ | ⟨rfl, _⟩ | ⟨rfl, _⟩ | ⟨rfl, _⟩ | ⟨rfl, _⟩ <;> norm_num)
  exact ⟨all.1, ((all.2 ['r']).2 _ (List.Sublist.refl _)).1⟩

end TwoChannels

end EdgeVoice.SegmentLifecycle
