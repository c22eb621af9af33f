import EdgeVoice.AudioDump

/-! When the dump worker lives through its settings. `segment_secs` is any number, so the
threshold may be no number of samples: at zero or below the inner loop finds a full segment for
ever, and an odd one makes `np.frombuffer` raise on the first full segment. -/

namespace EdgeVoice.DumpThreshold
open PythonText Models AudioDump

/-- The worker handles the packets and is stopped: no loop runs for ever, and nothing raises. -/
def Survives (threshold : ℤ) (packets : List AudioPacket) : Prop :=
  ∃ fuel writes, run threshold fuel packets = .ok writes

variable {threshold : ℤ} {fuel : ℕ} {packets : List AudioPacket}

theorem Survives.handles (survives : Survives threshold packets) :
    ∃ fuel handled, handlePackets threshold fuel packets = .ok handled := by
  obtain ⟨fuel, writes, returned⟩ := survives
  refine ⟨fuel, ?_⟩
  unfold run at returned
  cases handles : handlePackets threshold fuel packets with
  | error stuck => simp [handles] at returned
  | ok handled => exact ⟨handled, rfl⟩

/-- A threshold of zero or below is met by every buffer. -/
theorem pos_of_handles {handled : Dump × List Write} (nonempty : packets ≠ [])
    (returned : handlePackets threshold fuel packets = .ok handled) : 0 < threshold := by
  induction packets using List.reverseRecOn generalizing handled with
  | nil => exact absurd rfl nonempty
  | append_singleton past packet ih =>
    obtain ⟨before, now, _, second, _⟩ := handlePackets_concat.mp returned
    by_contra low
    simp only [handlePacket] at second
    split at second
    · cases second
    · rename_i looped
      exact flushFull_nonpos (not_lt.mp low) _ looped

/-- With an odd threshold no channel has come to a full segment. -/
theorem short_of_odd {dump : Dump} {written : List Write} {segments : Str → List (List ℤ)}
    (stored : Stored threshold packets dump written segments) (odd : ¬Even threshold) (c : Str) :
    ((bytesOn c packets).length : ℤ) < threshold := by
  have none_full : segments c = [] := by
    rw [List.eq_nil_iff_forall_not_mem]
    intro segment member
    have even := even_pcm16 segment
    rw [← Int.even_coe_nat, stored.full c segment member] at even
    exact odd even
  rw [stored.account, none_full]
  exact stored.short c

/-- The worker survives packets of whole samples if and only if there are none, or the threshold
is above zero and either a whole number of samples or out of every channel's reach. -/
theorem survives_iff (segmentSecs : ℚ) (sr : ℕ) (packets : List AudioPacket)
    (even : ∀ packet ∈ packets, Even packet.samples.length) :
    Survives (thresholdOf segmentSecs sr) packets ↔
      packets = [] ∨ 0 < thresholdOf segmentSecs sr ∧
        (Even (thresholdOf segmentSecs sr) ∨
          ∀ c, ((bytesOn c packets).length : ℤ) < thresholdOf segmentSecs sr) := by
  generalize thresholdOf segmentSecs sr = threshold
  constructor
  · intro survives
    by_cases empty : packets = []
    · exact Or.inl empty
    · obtain ⟨fuel, handled, returned⟩ := survives.handles
      have pos := pos_of_handles empty returned
      obtain ⟨segments, stored⟩ := handlePackets_stored pos returned
      refine Or.inr ⟨pos, ?_⟩
      by_cases whole : Even threshold
      · exact Or.inl whole
      · exact Or.inr (short_of_odd stored whole)
  · rintro (rfl | ⟨pos, fits⟩)
    · exact ⟨0, [], rfl⟩
    · obtain ⟨handled, returned⟩ := handlePackets_returns pos even fits fun c =>
        Nat.lt_succ_of_le ((List.filter_sublist.flatMap AudioPacket.samples).length_le :
          (bytesOn c packets).length ≤ (packets.flatMap AudioPacket.samples).length)
      obtain ⟨segments, _, writes⟩ := run_stored pos even returned
      exact ⟨_, _, writes⟩

/-- Ten seconds to a file. -/
theorem tenSeconds_survive : Survives (thresholdOf 10 16000) interleaved :=
  (survives_iff 10 16000 interleaved (by decide)).mpr
    (Or.inr ⟨by decide +kernel, Or.inl (by decide +kernel)⟩)

/-- No seconds to a file: the first packet is cut into empty files for ever. -/
theorem zeroSeconds_hang : ¬Survives (thresholdOf 0 16000) interleaved := by
  intro survives
  obtain ⟨fuel, handled, returned⟩ := survives.handles
  exact absurd (pos_of_handles (by decide) returned) (by decide +kernel)

/-- A sample and a half to a file, three bytes. -/
example : run (thresholdOf (3 / 32000) 16000) 3 interleaved = .error .raised := by
  decide +kernel

end EdgeVoice.DumpThreshold
