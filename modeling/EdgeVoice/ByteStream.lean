import EdgeVoice.ChannelRouter
import EdgeVoice.StepSystem

/-! The Repacketizer over a sequence of calls. Seen at one channel a call is a step of
that channel's buffer alone, so what the calls do to a channel is what its own packets do:
the bytes of the accepted ones come out in whole frames or wait in the buffer. -/

namespace EdgeVoice.ByteStream
open PythonText Models ChannelRouter StepSystem

/-- The packets of a channel. -/
def onChannel (c : Str) (packets : List AudioPacket) : List AudioPacket :=
  packets.filter fun packet => packet.channelId = c

@[simp] theorem onChannel_nil (c : Str) : onChannel c [] = [] := rfl

@[simp] theorem onChannel_append (c : Str) (packets later : List AudioPacket) :
    onChannel c (packets ++ later) = onChannel c packets ++ onChannel c later :=
  List.filter_append packets later

theorem onChannel_all {c : Str} {packets : List AudioPacket}
    (all : ∀ packet ∈ packets, packet.channelId = c) : onChannel c packets = packets :=
  List.filter_eq_self.mpr fun packet member => by simp [all packet member]

theorem onChannel_none {c d : Str} (apart : d ≠ c) {packets : List AudioPacket}
    (all : ∀ packet ∈ packets, packet.channelId = d) : onChannel c packets = [] :=
  List.filter_eq_nil_iff.mpr fun packet member => by simp [all packet member, apart]

variable (r : Repacketizer)

/-- The size `process` asks for. -/
def Accepted (packet : AudioPacket) : Prop := (packet.samples.length : ℤ) = r.incomingBytes

instance (packet : AudioPacket) : Decidable (Accepted r packet) :=
  inferInstanceAs (Decidable (_ = _))

/-- One call of `process`: what it leaves in the buffers, and what it returns. A ValueError
is the caller's to catch. -/
def call (buffers : Buffers) (packet : AudioPacket) : Buffers × List AudioPacket :=
  (process r buffers packet).getD (buffers, [])

/-- A channel's buffer with a packet taken in. -/
def takeIn (held : ChannelBuffer) (packet : AudioPacket) : ChannelBuffer where
  buffer := held.buffer ++ packet.samples
  startTs := if held.buffer = [] then packet.timestamp else held.startTs

/-- The call seen at the packet's own channel. -/
def feed (held : ChannelBuffer) (packet : AudioPacket) : ChannelBuffer × List AudioPacket :=
  if Accepted r packet then
    let emitted := emitFrames r packet.channelId (takeIn held packet).buffer.length
      (takeIn held packet)
    (emitted.2, emitted.1)
  else (held, [])

variable {r}

theorem process_rejects {buffers : Buffers} {packet : AudioPacket} :
    process r buffers packet = none ↔ ¬Accepted r packet := by
  unfold process Accepted
  split
  · rename_i wrong
    exact iff_of_true rfl wrong
  · rename_i right
    exact iff_of_false (by simp) right

theorem call_eq (buffers : Buffers) (packet : AudioPacket) :
    call r buffers packet =
      (Function.update buffers packet.channelId (feed r (buffers packet.channelId) packet).1,
        (feed r (buffers packet.channelId) packet).2) := by
  by_cases accepted : Accepted r packet
  · have size : ¬(packet.samples.length : ℤ) ≠ r.incomingBytes := not_not.mpr accepted
    unfold call process feed
    rw [if_neg size, if_pos accepted]
    rfl
  · have raised : process r buffers packet = none := process_rejects.mpr accepted
    unfold call feed
    rw [raised, if_neg accepted]
    simp

theorem call_rejected {packet : AudioPacket} (rejected : ¬Accepted r packet) (buffers : Buffers) :
    call r buffers packet = (buffers, []) := by
  rw [call_eq, feed, if_neg rejected]
  simp

/-- What one step of a channel does with its bytes. -/
theorem feed_conserves (held : ChannelBuffer) (packet : AudioPacket) :
    (feed r held packet).2.flatMap (·.samples) ++ (feed r held packet).1.buffer =
        held.buffer ++ (if Accepted r packet then packet.samples else []) ∧
      (held.buffer.length < r.outgoingBytes →
        (feed r held packet).1.buffer.length < r.outgoingBytes) ∧
      ∀ frame ∈ (feed r held packet).2,
        frame.channelId = packet.channelId ∧ frame.samples.length = r.outgoingBytes := by
  unfold feed
  by_cases accepted : Accepted r packet
  · obtain ⟨joined, short, frames⟩ := emitFrames_conserves r packet.channelId
      (takeIn held packet).buffer.length (takeIn held packet) (le_refl _)
    simp only [if_pos accepted]
    exact ⟨joined, fun _ => short, frames⟩
  · simp only [if_neg accepted]
    exact ⟨by simp, id, by simp⟩

/-- Seen at a channel a call is the step of that channel, or nothing. -/
theorem call_channel (c : Str) (buffers : Buffers) (packet : AudioPacket) :
    ((call r buffers packet).1 c, onChannel c (call r buffers packet).2) =
      if decide (packet.channelId = c) then feed r (buffers c) packet else (buffers c, []) := by
  have carried : ∀ frame ∈ (feed r (buffers packet.channelId) packet).2,
      frame.channelId = packet.channelId := by
    intro frame member
    exact ((feed_conserves _ packet).2.2 frame member).1
  rw [call_eq]
  by_cases own : packet.channelId = c
  · subst own
    simp [onChannel_all carried]
  · simp [own, onChannel_none own carried, Function.update_of_ne (Ne.symm own)]

variable (r)

/-- The buffers after a sequence of calls on a new Repacketizer, and all that was emitted. -/
abbrev calls (packets : List AudioPacket) : Buffers × List AudioPacket :=
  outputs (call r) (fun _ => {}) packets

/-- The accepted packets of a channel. -/
def received (c : Str) (packets : List AudioPacket) : List AudioPacket :=
  (onChannel c packets).filter fun packet => Accepted r packet

variable {r}

theorem received_concat (c : Str) (past : List AudioPacket) (packet : AudioPacket) :
    received r c (past ++ [packet]) =
      received r c past ++ if packet.channelId = c ∧ Accepted r packet then [packet] else [] := by
  unfold received
  rw [onChannel_append, List.filter_append]
  by_cases own : packet.channelId = c
  · by_cases accepted : Accepted r packet
    · simp [onChannel, own, accepted]
    · simp [onChannel, own, accepted]
  · simp [onChannel, own]

theorem feed_rejected {held : ChannelBuffer} {packet : AudioPacket}
    (rejected : ¬Accepted r packet) : feed r held packet = (held, []) :=
  if_neg rejected

/-- One more call: what it does to the buffer of a channel, and emits on it. -/
theorem calls_concat (c : Str) (past : List AudioPacket) (packet : AudioPacket) :
    ((calls r (past ++ [packet])).1 c, onChannel c (call r (calls r past).1 packet).2) =
      if packet.channelId = c ∧ Accepted r packet then feed r ((calls r past).1 c) packet
      else ((calls r past).1 c, []) := by
  have state : (calls r (past ++ [packet])).1 = (call r (calls r past).1 packet).1 := by
    rw [calls, outputs_append]
    rfl
  rw [state, call_channel c (calls r past).1 packet]
  by_cases own : packet.channelId = c
  · by_cases accepted : Accepted r packet
    · simp [own, accepted]
    · simp [own, accepted, feed_rejected]
  · simp [own]

theorem calls_channel (c : Str) (packets : List AudioPacket) :
    ((calls r packets).1 c, onChannel c (calls r packets).2) =
      outputs (feed r) {} (onChannel c packets) :=
  outputs_at rfl (onChannel_append c) (call_channel c) (fun _ => {}) packets

/-- A run of one channel: its accepted bytes, in frames or in its buffer. -/
theorem feeds_conserve (packets : List AudioPacket) :
    (outputs (feed r) {} packets).2.flatMap (·.samples) ++ (outputs (feed r) {} packets).1.buffer =
        (packets.filter fun packet => Accepted r packet).flatMap (·.samples) ∧
      (outputs (feed r) {} packets).1.buffer.length < r.outgoingBytes := by
  refine outputs_history (feed r)
    (P := fun past emitted held => emitted.flatMap (·.samples) ++ held.buffer =
      (past.filter fun packet => Accepted r packet).flatMap (·.samples) ∧
        held.buffer.length < r.outgoingBytes) ⟨rfl, by simp [r.outgoingBytes_pos]⟩ ?_ packets
  intro past emitted held packet ⟨conserved, short⟩
  obtain ⟨joined, stillShort, _⟩ := feed_conserves held packet
  refine ⟨?_, stillShort short⟩
  rw [List.flatMap_append, List.append_assoc, joined, ← List.append_assoc, conserved,
    List.filter_append, List.flatMap_append]
  by_cases accepted : Accepted r packet
  · simp [accepted]
  · simp [accepted]

variable (r)

/-- What a sequence of calls has done with the packets of a channel. -/
structure Conserved (packets : List AudioPacket) (c : Str) : Prop where
  bytes : (onChannel c (calls r packets).2).flatMap (·.samples) ++
    ((calls r packets).1 c).buffer = (received r c packets).flatMap (·.samples)
  short : ((calls r packets).1 c).buffer.length < r.outgoingBytes
  /-- Of every call: what it emits, and what it does if it raises. -/
  frames : ∀ past packet later, packets = past ++ packet :: later →
    ∀ frame ∈ (call r (calls r past).1 packet).2,
      frame.channelId = packet.channelId ∧ frame.samples.length = r.outgoingBytes
  rejected : ∀ past packet later, packets = past ++ packet :: later → ¬Accepted r packet →
    process r (calls r past).1 packet = none ∧ calls r (past ++ [packet]) = calls r past
  alone : (calls r packets).1 c = (calls r (onChannel c packets)).1 c ∧
    onChannel c (calls r packets).2 = (calls r (onChannel c packets)).2

/-- Every sequence of calls, on any channels and with packets of any size: the byte stream
of each channel is conserved, and is its own. -/
theorem byte_stream_conserved (packets : List AudioPacket) (c : Str) : Conserved r packets c := by
  have whole := @calls_channel r c packets
  have state := congrArg Prod.fst whole
  have emitted := congrArg Prod.snd whole
  simp only at state emitted
  obtain ⟨conserved, short⟩ := @feeds_conserve r (onChannel c packets)
  have frames (buffers : Buffers) (packet : AudioPacket) : ∀ frame ∈ (call r buffers packet).2,
      frame.channelId = packet.channelId ∧ frame.samples.length = r.outgoingBytes := by
    rw [call_eq]
    exact (feed_conserves _ packet).2.2
  refine ⟨?_, ?_, fun past packet _ _ => frames _ packet, ?_, ?_⟩
  · rw [state, emitted]
    exact conserved
  · rw [state]
    exact short
  · intro past packet later _ rejected
    refine ⟨process_rejects.mpr rejected, ?_⟩
    rw [calls, outputs_append, outputs_cons, call_rejected rejected]
    simp
  · have own : ∀ packet ∈ (calls r (onChannel c packets)).2, packet.channelId = c := by
      intro frame member
      obtain ⟨past, packet, later, split, made⟩ := (mem_outputs_iff (call r)).mp member
      have inside : packet ∈ onChannel c packets := by simp [split]
      rw [(frames _ packet frame made).1]
      simpa [onChannel] using (List.mem_filter.mp inside).2
    have alone := @calls_channel r c (onChannel c packets)
    rw [onChannel_all own] at alone
    have twice : onChannel c (onChannel c packets) = onChannel c packets := by
      simp [onChannel]
    rw [twice, ← whole] at alone
    exact ⟨(congrArg Prod.fst alone).symm, (congrArg Prod.snd alone).symm⟩

end EdgeVoice.ByteStream
