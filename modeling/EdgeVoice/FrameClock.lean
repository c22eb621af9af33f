import EdgeVoice.ByteStream

/-! The timestamps the Repacketizer gives out. The clock of a channel is set by an accepted
packet that finds the buffer empty, and advances by one frame per frame emitted. When the
packets are as far apart as they are long the two agree: at an empty buffer as many samples
have gone out as came in. -/

namespace EdgeVoice.FrameClock
open PythonText Models ChannelRouter ByteStream StepSystem

/-- Packets on a clock: the first at `start`, each next one a period later. -/
def Stamped (start period : ℚ) (packets : List AudioPacket) : Prop :=
  ∀ (k : ℕ) packet, packets[k]? = some packet → packet.timestamp = start + k * period

theorem Stamped.append {start period : ℚ} {packets later : List AudioPacket}
    (first : Stamped start period packets)
    (rest : Stamped (start + packets.length * period) period later) :
    Stamped start period (packets ++ later) := by
  intro k packet at_k
  by_cases early : k < packets.length
  · rw [List.getElem?_append_left early] at at_k
    exact first k packet at_k
  · have bound : packets.length ≤ k := by omega
    rw [List.getElem?_append_right bound] at at_k
    rw [rest _ packet at_k, Nat.cast_sub bound]
    ring

theorem Stamped.left {start period : ℚ} {packets later : List AudioPacket}
    (h : Stamped start period (packets ++ later)) : Stamped start period packets := by
  intro k packet at_k
  obtain ⟨bound, _⟩ := List.getElem?_eq_some_iff.mp at_k
  exact h k packet (by rw [List.getElem?_append_left bound, at_k])

section Frames

variable (r : Repacketizer)

/-- The frames of one call are on the clock, and the clock moves on past them. -/
theorem emitFrames_clock (channelId : Str) (turns : ℕ) (held : ChannelBuffer) :
    Stamped held.startTs r.outgoingS (emitFrames r channelId turns held).1 ∧
      (emitFrames r channelId turns held).2.startTs =
        held.startTs + (emitFrames r channelId turns held).1.length * r.outgoingS := by
  induction turns generalizing held with
  | zero => simp [emitFrames, Stamped]
  | succ turns ih =>
    by_cases whole : r.outgoingBytes ≤ held.buffer.length
    · obtain ⟨stamps, clock⟩ :=
        ih ⟨held.buffer.drop r.outgoingBytes, held.startTs + r.outgoingS⟩
      simp only [emitFrames, if_pos whole]
      refine ⟨?_, ?_⟩
      · intro k frame at_k
        cases k with
        | zero =>
          cases at_k
          simp
        | succ k =>
          rw [stamps k frame at_k]
          push_cast
          ring
      · rw [clock, List.length_cons]
        push_cast
        ring
    · simp [emitFrames, if_neg whole, Stamped]

variable {r}

theorem feed_clock {held : ChannelBuffer} {packet : AudioPacket} (accepted : Accepted r packet) :
    Stamped (takeIn held packet).startTs r.outgoingS (feed r held packet).2 ∧
      (feed r held packet).1.startTs =
        (takeIn held packet).startTs + (feed r held packet).2.length * r.outgoingS := by
  simp only [feed, if_pos accepted]
  exact emitFrames_clock r packet.channelId _ (takeIn held packet)

end Frames

section Anchors

variable (r : Repacketizer)

/-- The last accepted packet of the channel that found its buffer empty. -/
structure Anchored (c : Str) (packets before : List AudioPacket) (anchor : AudioPacket)
    (since : List AudioPacket) : Prop where
  whole : packets = before ++ anchor :: since
  own : anchor.channelId = c
  accepted : Accepted r anchor
  empty : ((calls r before).1 c).buffer = []
  last : ∀ seen packet, seen ++ [packet] <+: since → packet.channelId = c → Accepted r packet →
    ((calls r (before ++ anchor :: seen)).1 c).buffer ≠ []

/-- What is emitted on the channel from the anchor's own call on. -/
def framesSince (c : Str) (before : List AudioPacket) (anchor : AudioPacket)
    (since : List AudioPacket) : List AudioPacket :=
  onChannel c (outputs (call r) (calls r before).1 (anchor :: since)).2

variable {r}

theorem Anchored.extend {c : Str} {packets before since : List AudioPacket}
    {anchor packet : AudioPacket} (h : Anchored r c packets before anchor since)
    (held : packet.channelId = c → Accepted r packet → ((calls r packets).1 c).buffer ≠ []) :
    Anchored r c (packets ++ [packet]) before anchor (since ++ [packet]) := by
  refine ⟨by simp [h.whole], h.own, h.accepted, h.empty, ?_⟩
  intro seen p within own accepted
  rcases List.prefix_concat_iff.mp within with all | earlier
  · obtain ⟨rfl, same⟩ := List.append_inj' all rfl
    cases same
    rw [← h.whole]
    exact held own accepted
  · exact h.last seen p earlier own accepted

theorem framesSince_extend (c : Str) (before since : List AudioPacket)
    (anchor packet : AudioPacket) :
    framesSince r c before anchor (since ++ [packet]) =
      framesSince r c before anchor since ++
        onChannel c (call r (calls r (before ++ anchor :: since)).1 packet).2 := by
  have state : (calls r (before ++ anchor :: since)).1 =
      (outputs (call r) (calls r before).1 (anchor :: since)).1 := by
    rw [calls, outputs_append]
  rw [state, framesSince, framesSince, ← List.cons_append, outputs_append, onChannel_append]
  simp only [outputs_cons, outputs_nil, List.append_nil]

/-- The run lemma: the clock of the channel runs from its anchor. -/
theorem clock_anchored (c : Str) (packets : List AudioPacket) :
    ((calls r packets).1 c).buffer = [] ∧ received r c packets = [] ∨
      ∃ before anchor since, Anchored r c packets before anchor since ∧
        Stamped anchor.timestamp r.outgoingS (framesSince r c before anchor since) ∧
        ((calls r packets).1 c).startTs =
          anchor.timestamp + (framesSince r c before anchor since).length * r.outgoingS := by
  induction packets using List.reverseRecOn with
  | nil => exact Or.inl ⟨rfl, rfl⟩
  | append_singleton past packet ih =>
    have step := @calls_concat r c past packet
    by_cases heard : packet.channelId = c ∧ Accepted r packet
    · rw [if_pos heard] at step
      have state := congrArg Prod.fst step
      have emitted := congrArg Prod.snd step
      simp only at state emitted
      obtain ⟨stamps, clock⟩ := @feed_clock r ((calls r past).1 c) packet heard.2
      by_cases empty : ((calls r past).1 c).buffer = []
      · -- the packet is the new anchor
        right
        have anchored : (takeIn ((calls r past).1 c) packet).startTs = packet.timestamp :=
          if_pos empty
        have frames : framesSince r c past packet [] = (feed r ((calls r past).1 c) packet).2 := by
          rw [← emitted]
          simp [framesSince]
        refine ⟨past, packet, [], ⟨rfl, heard.1, heard.2, empty, by simp⟩, ?_, ?_⟩
        · rw [frames, ← anchored]
          exact stamps
        · rw [frames, state, clock, anchored]
      · rcases ih with ⟨noneHeld, _⟩ | ⟨before, anchor, since, earlier, clocked, running⟩
        · exact absurd noneHeld empty
        · right
          have carried : (takeIn ((calls r past).1 c) packet).startTs =
              ((calls r past).1 c).startTs := if_neg empty
          have frames : framesSince r c before anchor (since ++ [packet]) =
              framesSince r c before anchor since ++ (feed r ((calls r past).1 c) packet).2 := by
            rw [framesSince_extend, ← earlier.whole, emitted]
          rw [carried, running] at stamps clock
          refine ⟨before, anchor, since ++ [packet], earlier.extend fun _ _ => empty, ?_, ?_⟩
          · rw [frames]
            exact clocked.append stamps
          · rw [frames, state, clock, List.length_append]
            push_cast
            ring
    · rw [if_neg heard] at step
      have state := congrArg Prod.fst step
      have emitted := congrArg Prod.snd step
      simp only at state emitted
      rw [state]
      rcases ih with ⟨empty, silent⟩ | ⟨before, anchor, since, earlier, clocked, running⟩
      · left
        exact ⟨empty, by rw [received_concat, if_neg heard, silent]; rfl⟩
      · right
        have frames : framesSince r c before anchor (since ++ [packet]) =
            framesSince r c before anchor since := by
          rw [framesSince_extend, ← earlier.whole, emitted, List.append_nil]
        refine ⟨before, anchor, since ++ [packet],
          earlier.extend fun own accepted => absurd ⟨own, accepted⟩ heard, ?_, ?_⟩
        · rw [frames]
          exact clocked
        · rw [frames]
          exact running

/-- The last call's frames are the last of those since the anchor. -/
theorem Anchored.framesSince_eq {c : Str} {past before since : List AudioPacket}
    {anchor packet : AudioPacket} (h : Anchored r c (past ++ [packet]) before anchor since) :
    ∃ earlier, framesSince r c before anchor since =
      earlier ++ onChannel c (call r (calls r past).1 packet).2 := by
  cases since using List.reverseRecOn with
  | nil =>
    obtain ⟨rfl, same⟩ := List.append_inj' h.whole rfl
    cases same
    exact ⟨[], by simp [framesSince]⟩
  | append_singleton since last =>
    have whole : past ++ [packet] = (before ++ anchor :: since) ++ [last] := by simp [h.whole]
    obtain ⟨rfl, same⟩ := List.append_inj' whole rfl
    cases same
    exact ⟨_, framesSince_extend c before since anchor packet⟩

end Anchors

section Paced

variable {r : Repacketizer}

/-- The bytes of an accepted packet go into frames or stay. -/
theorem feed_bytes {held : ChannelBuffer} {packet : AudioPacket} (accepted : Accepted r packet) :
    ((feed r held packet).2.length * r.outgoingBytes + (feed r held packet).1.buffer.length : ℤ) =
      held.buffer.length + r.incomingBytes := by
  obtain ⟨joined, _, frames⟩ := @feed_conserves r held packet
  have bytes : ((feed r held packet).2.flatMap (·.samples)).length =
      (feed r held packet).2.length * r.outgoingBytes := by
    rw [List.length_flatMap, List.sum_eq_card_nsmul _ r.outgoingBytes, List.length_map,
      smul_eq_mul]
    simp only [List.mem_map, forall_exists_index, and_imp]
    rintro size frame member rfl
    exact (frames frame member).2
  have lengths := congrArg List.length joined
  rw [List.length_append, List.length_append, if_pos accepted, bytes] at lengths
  rw [← show (packet.samples.length : ℤ) = r.incomingBytes from accepted]
  exact_mod_cast lengths

/-- The clock a packet finds or sets, when packets and frames are level at an empty buffer. -/
theorem takeIn_paced {held : ChannelBuffer} {packet : AudioPacket} {period start : ℚ} {n e : ℕ}
    (agree : (e * r.outgoingBytes : ℤ) = n * r.incomingBytes → n * period = e * r.outgoingS)
    (stamp : packet.timestamp = start + n * period)
    (bytes : (e * r.outgoingBytes + held.buffer.length : ℤ) = n * r.incomingBytes)
    (running : 0 < n → held.startTs = start + e * r.outgoingS) :
    (takeIn held packet).startTs = start + e * r.outgoingS := by
  by_cases empty : held.buffer = []
  · rw [empty] at bytes
    have level := agree (by simpa using bytes)
    rw [takeIn, if_pos empty, stamp, level]
  · have some_received : 0 < n := by
      by_contra none_received
      have zero : n = 0 := by omega
      have waiting : 0 < held.buffer.length := List.length_pos_of_ne_nil empty
      rw [zero, Nat.cast_zero, zero_mul] at bytes
      have frames : (0 : ℤ) ≤ e * r.outgoingBytes := by positivity
      omega
    rw [takeIn, if_neg empty]
    exact running some_received

/-- Where equal numbers of bytes take equal times, packets a period apart give frames a
frame apart: an empty buffer means that all that came in has gone out. -/
theorem frames_paced {period start : ℚ}
    (agree : ∀ n e : ℕ, (e * r.outgoingBytes : ℤ) = n * r.incomingBytes →
      n * period = e * r.outgoingS)
    (c : Str) (packets : List AudioPacket) (paced : Stamped start period (received r c packets)) :
    Stamped start r.outgoingS (onChannel c (calls r packets).2) ∧
      ((onChannel c (calls r packets).2).length * r.outgoingBytes +
          ((calls r packets).1 c).buffer.length : ℤ) =
        (received r c packets).length * r.incomingBytes ∧
      (0 < (received r c packets).length → ((calls r packets).1 c).startTs =
        start + (onChannel c (calls r packets).2).length * r.outgoingS) := by
  induction packets using List.reverseRecOn with
  | nil => simp [Stamped, received]
  | append_singleton past packet ih =>
    have step := @calls_concat r c past packet
    have emitted : (calls r (past ++ [packet])).2 =
        (calls r past).2 ++ (call r (calls r past).1 packet).2 := by
      rw [calls, outputs_append]
      simp
    rw [received_concat] at paced ⊢
    obtain ⟨stamped, bytes, running⟩ := ih paced.left
    rw [emitted, onChannel_append]
    by_cases heard : packet.channelId = c ∧ Accepted r packet
    · rw [if_pos heard] at step paced ⊢
      have state := congrArg Prod.fst step
      have frames := congrArg Prod.snd step
      simp only at state frames
      obtain ⟨stamps, clock⟩ := @feed_clock r ((calls r past).1 c) packet heard.2
      have more := @feed_bytes r ((calls r past).1 c) packet heard.2
      rw [state, frames]
      have anchor := takeIn_paced (agree _ _) (paced _ packet (by simp)) bytes running
      rw [anchor] at stamps clock
      refine ⟨stamped.append stamps, ?_, fun _ => ?_⟩
      · rw [List.length_append, List.length_append, List.length_singleton]
        push_cast
        linarith
      · rw [clock, List.length_append]
        push_cast
        ring
    · rw [if_neg heard] at step ⊢
      have state := congrArg Prod.fst step
      have frames := congrArg Prod.snd step
      simp only at state frames
      rw [state, frames, List.append_nil, List.append_nil]
      exact ⟨stamped, bytes, running⟩

end Paced

/-- Where as many bytes have gone out as came in, so have as many seconds. -/
theorem level_seconds {config : RepacketizerConfig} {a b n e : ℕ}
    (incoming : config.incomingMs * config.sampleRate / 1000 = a)
    (outgoing : config.outgoingMs * config.sampleRate / 1000 = b) (positive : 0 < a)
    (width : 0 < config.bytesPerSample)
    (level : e * (b * config.bytesPerSample) = n * (a * config.bytesPerSample)) :
    (e : ℚ) * (config.outgoingMs / 1000) = n * (config.incomingMs / 1000) := by
  have samples : e * b = n * a := by
    rw [← mul_assoc, ← mul_assoc] at level
    exact Nat.eq_of_mul_eq_mul_right width level
  have rate : (config.sampleRate : ℚ) ≠ 0 := by
    intro zero
    rw [zero, mul_zero, zero_div] at incoming
    have none_in : (0 : ℚ) < a := by exact_mod_cast positive
    linarith
  have level : (e : ℚ) * b = n * a := by exact_mod_cast samples
  rw [← incoming, ← outgoing] at level
  field_simp at level ⊢
  linarith

/-- The clock of every run of a Repacketizer over whole samples. -/
theorem frames_clocked {config : RepacketizerConfig} {r : Repacketizer}
    (built : Repacketizer.ofConfig config = some r) {a b : ℕ}
    (incoming : config.incomingMs * config.sampleRate / 1000 = a)
    (outgoing : config.outgoingMs * config.sampleRate / 1000 = b)
    (positive : 0 < a ∧ 0 < b) (packets : List AudioPacket) (c : Str) :
    (∀ past packet later, packets = past ++ packet :: later → packet.channelId = c →
      ∀ j frame, (call r (calls r past).1 packet).2[j]? = some frame →
        ∃ before anchor since, Anchored r c (past ++ [packet]) before anchor since ∧
          ∃ earlier, framesSince r c before anchor since =
              earlier ++ (call r (calls r past).1 packet).2 ∧
            frame.timestamp =
              anchor.timestamp + (earlier.length + j : ℕ) * (config.outgoingMs / 1000)) ∧
      ∀ start, Stamped start (config.incomingMs / 1000) (received r c packets) →
        Stamped start (config.outgoingMs / 1000) (onChannel c (calls r packets).2) := by
  obtain ⟨incomingBytes, outgoingBytes, outgoingS⟩ := Repacketizer.ofConfig_built built
  rw [msToBytes_whole incoming] at incomingBytes
  rw [msToBytes_whole outgoing] at outgoingBytes
  rw [← outgoingS]
  refine ⟨?_, ?_⟩
  · intro past packet later _ own j frame at_j
    have accepted : Accepted r packet := by
      by_contra rejected
      rw [call_rejected rejected] at at_j
      simp at at_j
    have carried : onChannel c (call r (calls r past).1 packet).2 =
        (call r (calls r past).1 packet).2 := by
      refine onChannel_all fun frame member => ?_
      rw [call_eq] at member
      rw [((feed_conserves _ packet).2.2 frame member).1, own]
    rcases @clock_anchored r c (past ++ [packet]) with
      ⟨_, silent⟩ | ⟨before, anchor, since, anchored, stamped, _⟩
    · rw [received_concat, if_pos ⟨own, accepted⟩] at silent
      simp at silent
    · obtain ⟨earlier, frames⟩ := anchored.framesSince_eq
      rw [carried] at frames
      refine ⟨before, anchor, since, anchored, earlier, frames, ?_⟩
      refine stamped _ frame ?_
      rw [frames, List.getElem?_append_right (Nat.le_add_right _ _), Nat.add_sub_cancel_left]
      exact at_j
  · intro start paced
    refine (frames_paced ?_ c packets paced).1
    intro n e level
    have incomingSize := Option.some.inj incomingBytes
    have outgoingSize := Option.some.inj outgoingBytes
    have width : 0 < config.bytesPerSample := by
      have nonempty := r.outgoingBytes_pos
      by_contra zero
      have zero : config.bytesPerSample = 0 := by omega
      rw [zero] at outgoingSize
      omega
    rw [← incomingSize, ← outgoingSize] at level
    rw [outgoingS]
    exact (level_seconds incoming outgoing positive.1 width (by exact_mod_cast level)).symm

/-- Packets of two samples and frames of three, a kilohertz, one byte a sample. -/
def twoIntoThree : RepacketizerConfig := ⟨2, 3, 1000, 1⟩

def fivePackets : List AudioPacket :=
  [⟨['r'], 5, [1, 2]⟩, ⟨['r'], 5 + 2 / 1000, [3, 4]⟩, ⟨['r'], 5 + 4 / 1000, [5, 6]⟩,
    ⟨['r'], 5 + 6 / 1000, [7, 8]⟩, ⟨['r'], 5 + 8 / 1000, [9, 10]⟩]

/-- The fourth packet finds the buffer empty and sets the clock anew. -/
theorem fivePackets_clocked :
    ∃ r, Repacketizer.ofConfig twoIntoThree = some r ∧
      Stamped 5 (3 / 1000) (onChannel ['r'] (calls r fivePackets).2) := by
  have built := @Repacketizer.ofConfig_whole twoIntoThree 2 3 (by norm_num [twoIntoThree])
    (by norm_num [twoIntoThree]) (by decide)
  refine ⟨_, built, (frames_clocked built (a := 2) (b := 3) (by norm_num [twoIntoThree])
    (by norm_num [twoIntoThree]) (by decide) fivePackets ['r']).2 5 ?_⟩
  have all : received ⟨2, 3, 3 / 1000, by decide⟩ ['r'] fivePackets = fivePackets := by
    decide +kernel
  intro k packet at_k
  have at_k : fivePackets[k]? = some packet := all ▸ at_k
  match k with
  | 0 | 1 | 2 | 3 | 4 =>
    cases at_k
    norm_num [twoIntoThree]
  | k + 5 => simp [fivePackets] at at_k

end EdgeVoice.FrameClock
