import EdgeVoice.FrameClock

/-! Do a channel's frames come out in the order of their timestamps? Packets are stamped
when they arrive, frames by a clock that is set to a packet's own stamp whenever it finds
the buffer empty. That happens every `cyclePackets` accepted packets. Where they arrive
faster than they play the clock is ahead, and setting it puts it back. -/

namespace EdgeVoice.FrameOrder
open PythonText Models ChannelRouter ByteStream FrameClock StepSystem

variable (r : Repacketizer)

variable {r}

/-- The timestamps given out, in the order in which they are given out. -/
abbrev stamps (frames : List AudioPacket) : List ℚ := frames.map AudioPacket.timestamp

/-- The first packet comes in 30 ms late. -/
def lateStart : List AudioPacket :=
  ⟨['r'], 3 / 100, List.replicate 640 0⟩ ::
    (List.range 9).map fun k => ⟨['r'], max (3 / 100) ((k + 1) / 50), List.replicate 640 0⟩

end EdgeVoice.FrameOrder
