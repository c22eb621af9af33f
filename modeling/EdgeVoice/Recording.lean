import EdgeVoice.AudioDump
import EdgeVoice.AudioPath

/-! The debug recording at the end of the audio path. The router puts each frame for the
VADWorker and then for the AudioDumpWorker, so what the two take is one sequence, and the
recording's files hold what the VADWorker hears, whatever became of the messages before. -/

namespace EdgeVoice.Recording
open PythonText Models ChannelRouter VadWorker VadTrack StepSystem LossyQueue AudioPath

section Frames

theorem even_outgoing {config : RepacketizerConfig} {r : Repacketizer}
    (built : Repacketizer.ofConfig config = some r) (two : config.bytesPerSample = 2) :
    Even r.outgoingBytes := by
  have outgoing := (Repacketizer.ofConfig_built built).2.1
  simp only [msToBytes, two, Option.ite_none_left_eq_some, Option.some.injEq] at outgoing
  rw [← Int.even_coe_nat, ← outgoing.2]
  exact Even.mul_left (by decide) _

variable {σ : Type} {cfg : VADWorkerConfig} {it : VADIterator σ} {r : Repacketizer}
variable {pc : PathConfig} {p p' : Path σ} {e : PathEvent σ}

/-- The debug copies are frames too. -/
def Copies (r : Repacketizer) (pc : PathConfig) (p : Path σ) : Prop :=
  ∀ frame ∈ p.dumped ++ p.dump, Framed r pc frame

theorem Copies.step (copies : Copies r pc p) (sound : Sound cfg it r pc p)
    (step : pathStep cfg it r pc p e = some p') : Copies r pc p' := by
  cases pathStep_cases step with
  | copied gaveUp frame routing next dump put =>
    intro other member
    rcases List.mem_append.mp member with taken | queued
    · exact copies other (List.mem_append_left _ taken)
    · refine forall_offer put (fun x inside => copies x (List.mem_append_right _ inside)) ?_
        other queued
      exact sound.routing (.dump, frame) (next ▸ List.mem_cons_self)
  | tookDump frame dump next =>
    intro other member
    refine copies other ?_
    rw [next]
    simpa [List.append_assoc] using member
  | ignored | arrived | routed | forwarded | heard | checked | flushed | emitted | emittedCopy
  | took | tookSegmentDump | restartedRouter | restartedVad => exact copies

/-- No put of the router's gives up, and it is not replaced. -/
def Mirrors : PathEvent σ → Prop
  | .forward gaveUp => gaveUp = false
  | .restartRouter => False
  | _ => True

instance : (e : PathEvent σ) → Decidable (Mirrors e)
  | .forward gaveUp => inferInstanceAs (Decidable (gaveUp = false))
  | .restartRouter => isFalse id
  | .message _ _ | .route | .hear _ | .idleCheck _ | .flush | .emit _ | .take _ | .takeDump
  | .takeSegmentDump | .restartVad _ => isTrue trivial

theorem owed_copies {α : Type} (items : List α) :
    owed .dump (items.flatMap (fanoutPut true)) = items := by
  induction items with
  | nil => rfl
  | cons item items ih =>
    rw [List.flatMap_cons, owed_append, ih]
    rfl

/-- Both sides of the router's puts are the frames that it made. -/
def Mirrored (p : Path σ) : Prop :=
  p.dumped ++ (p.dump ++ owed .dump p.routing) = p.heard ++ (p.routed ++ owed .dst p.routing)

theorem Mirrored.start (iterators : Str → σ) :
    Mirrored ({ channels := freshChannels it iterators } : Path σ) := rfl

theorem Mirrored.step (dumping : pc.dumping = true) (mirrored : Mirrored p) (mirrors : Mirrors e)
    (step : pathStep cfg it r pc p e = some p') : Mirrored p' := by
  unfold Mirrored at mirrored ⊢
  cases pathStep_cases step with
  | routed packet ingest idle next =>
    rw [idle, owed_nil, owed_nil, List.append_nil, List.append_nil] at mirrored
    simp only [dumping, owed_copies, (owed_fanoutPut true _).1]
    rw [← List.append_assoc, mirrored, List.append_assoc]
  | forwarded gaveUp frame routing next routed put =>
    obtain rfl := mirrors
    rcases offer_cases put with ⟨rfl, _⟩ | ⟨_, full⟩
    · rw [next, owed_cons, owed_cons, if_neg (by simp), if_pos rfl, List.nil_append] at mirrored
      rw [mirrored]
      simp only [List.append_assoc]
    · simp [offer, full] at put
  | copied gaveUp frame routing next dump put =>
    obtain rfl := mirrors
    rcases offer_cases put with ⟨rfl, _⟩ | ⟨_, full⟩
    · rw [next, owed_cons, owed_cons, if_pos rfl, if_neg (by simp), List.nil_append] at mirrored
      rw [← mirrored]
      simp only [List.append_assoc]
    · simp [offer, full] at put
  | heard now frame routed idle next =>
    rw [next] at mirrored
    simp only [Path.turn]
    rw [mirrored]
    simp only [List.append_assoc, List.cons_append, List.nil_append]
  | tookDump frame dump next =>
    rw [next] at mirrored
    rw [← mirrored]
    simp only [List.append_assoc, List.cons_append, List.nil_append]
  | restartedRouter => cases mirrors
  | ignored | arrived | checked | flushed | emitted | emittedCopy | took | tookSegmentDump
  | restartedVad => exact mirrored

end Frames

section Files

variable {threshold : ℤ} {packets : List AudioPacket}

/-- From some fuel on run() returns, writes no file twice, and the files of a channel hold its
contents, the trailing one what is less than a full file. -/
def Records (threshold : ℤ) (packets : List AudioPacket) (contents : Str → List UInt8) : Prop :=
  ∃ enough, ∀ fuel, enough ≤ fuel → ∃ dump written segments,
    AudioDump.run threshold fuel packets =
      .ok (written ++ dump.channels.flatMap (AudioDump.tail dump)) ∧
    ((written ++ dump.channels.flatMap (AudioDump.tail dump)).map Prod.fst).Nodup ∧
    AudioDump.Stored threshold packets dump written segments ∧
    ∀ c, (segments c).flatMap AudioDump.pcm16 ++ (dump.rolling c).buffer = contents c

/-- A full file and a trailing one have different names. -/
theorem names_nodup {dump : AudioDump.Dump} {written : List AudioDump.Write}
    {segments : Str → List (List ℤ)}
    (stored : AudioDump.Stored threshold packets dump written segments) :
    ((written ++ dump.channels.flatMap (AudioDump.tail dump)).map Prod.fst).Nodup := by
  rw [List.map_append, List.nodup_append]
  refine ⟨stored.once, AudioDump.tails_nodup _ stored.distinct, fun name early other late => ?_⟩
  rintro rfl
  obtain ⟨⟨_, _⟩, inWritten, rfl⟩ := List.mem_map.mp early
  obtain ⟨⟨_, _⟩, inTails, same⟩ := List.mem_map.mp late
  obtain ⟨d, _, inTail⟩ := List.mem_flatMap.mp inTails
  obtain ⟨c, n, named, _⟩ := (stored.files _ _).mp inWritten
  exact AudioDump.segmentName_ne_endName c d n _
    (named.symm.trans (same.symm.trans (AudioDump.mem_tail.mp inTail).1))

theorem records (pos : 0 < threshold) (whole : Even threshold)
    (even : ∀ packet ∈ packets, Even packet.samples.length) :
    Records threshold packets fun c => AudioDump.bytesOn c packets := by
  refine ⟨(packets.flatMap AudioPacket.samples).length + 1, fun fuel enough => ?_⟩
  have bound (c : Str) : (AudioDump.bytesOn c packets).length < fuel := by
    have part : (AudioDump.bytesOn c packets).length ≤
        (packets.flatMap AudioPacket.samples).length := (List.filter_sublist.flatMap _).length_le
    omega
  obtain ⟨⟨dump, written⟩, returned⟩ :=
    AudioDump.handlePackets_returns pos even (Or.inl whole) bound
  obtain ⟨segments, stored, writes⟩ := AudioDump.run_stored pos even returned
  exact ⟨dump, written, segments, writes, names_nodup stored, stored,
    fun c => (stored.account c).symm⟩

end Files

section Runs

variable {σ : Type} {cfg : VADWorkerConfig} {it : VADIterator σ} {r : Repacketizer}
variable {pc : PathConfig} {p : Path σ} {iterators : Str → σ} {events : List (PathEvent σ)}
variable {threshold : ℤ} {config : RepacketizerConfig}

/-- Whatever is dropped, replaced and given up on the way, the recording of what came to the
AudioDumpWorker is whole. -/
theorem run_records (pos : 0 < threshold) (whole : Even threshold)
    (built : Repacketizer.ofConfig config = some r) (two : config.bytesPerSample = 2)
    (reached : run (pathStep cfg it r pc) { channels := freshChannels it iterators } events =
      some p) : Records threshold p.dumped fun c => bytesOn c p.dumped := by
  have both := run_invariant (pathStep cfg it r pc)
    (I := fun p => Sound cfg it r pc p ∧ Copies r pc p)
    ⟨Sound.start iterators, fun frame member => by cases member⟩
    (fun _ _ _ before step => ⟨before.1.step step, before.2.step before.1 step⟩) reached
  refine records pos whole fun frame member => ?_
  rw [(both.2 frame (List.mem_append_left _ member)).2]
  exact even_outgoing built two

/-- Where no put of the router's gives up and it is not replaced, the AudioDumpWorker takes the
frames that the VADWorker hears, one of the two ahead of the other; once nothing waits for
either, the recording's files hold on each channel just what the VADWorker has heard. -/
theorem recording_is_what_vad_hears (pos : 0 < threshold) (whole : Even threshold)
    (built : Repacketizer.ofConfig config = some r) (two : config.bytesPerSample = 2)
    (dumping : pc.dumping = true)
    (mirrors : Along (pathStep cfg it r pc) (fun _ => Mirrors)
      { channels := freshChannels it iterators } events)
    (reached : run (pathStep cfg it r pc) { channels := freshChannels it iterators } events =
      some p) :
    (Records threshold p.dumped fun c => bytesOn c p.dumped) ∧
      (p.dumped <+: p.heard ∨ p.heard <+: p.dumped) ∧
      (p.dump = [] → p.routed = [] → p.routing = [] →
        Records threshold p.dumped fun c => bytesOn c p.heard) := by
  have records := run_records pos whole built two reached
  have mirrored := run_invariant_along (pathStep cfg it r pc) (I := Mirrored)
    (Mirrored.start iterators) (fun _ _ _ before mirrors step =>
      before.step dumping mirrors step) mirrors reached
  unfold Mirrored at mirrored
  refine ⟨records, ?_, fun copies queue hands => ?_⟩
  · have taken := List.prefix_append p.dumped (p.dump ++ owed .dump p.routing)
    rw [mirrored] at taken
    exact List.prefix_or_prefix_of_prefix taken (List.prefix_append _ _)
  · rw [copies, queue, hands] at mirrored
    have same : p.dumped = p.heard := by simpa using mirrored
    rwa [same] at records ⊢

def oneSample : RepacketizerConfig := { incomingMs := 1, outgoingMs := 1, sampleRate := 1000 }

/-- Two frames, recorded in files of one sample. -/
def wordRecorded : List (PathEvent Bool) :=
  [.message ⟨['a', '/', 'r'], [1, 0], 0⟩ false, .route, .forward false, .hear 0,
    .message ⟨['a', '/', 'r'], [2, 0], 0⟩ false, .message ⟨['a', '/', 'r'], [3, 0], 0⟩ true,
    .forward false, .takeDump, .route, .forward false, .forward false, .takeDump, .hear 1]

theorem wordRecorded_heard :
    ∃ p, run (pathStep ungated levelIterator ⟨2, 2, 1 / 1000, Nat.two_pos⟩ onePlace)
        { channels := freshChannels levelIterator fun _ => false } wordRecorded = some p ∧
      p.heard.map AudioPacket.samples = [[1, 0], [2, 0]] ∧
      Records 2 p.dumped fun c => bytesOn c p.heard := by
  have built : Repacketizer.ofConfig oneSample = some ⟨2, 2, 1 / 1000, Nat.two_pos⟩ :=
    @Repacketizer.ofConfig_whole oneSample 1 1 (by norm_num [oneSample])
      (by norm_num [oneSample]) (by decide)
  have ends : ((run (pathStep ungated levelIterator ⟨2, 2, 1 / 1000, Nat.two_pos⟩ onePlace)
      { channels := freshChannels levelIterator fun _ => false } wordRecorded).map fun p =>
        (p.heard.map AudioPacket.samples,
          decide (p.dump = [] ∧ p.routed = [] ∧ p.routing = []))) =
            some ([[1, 0], [2, 0]], true) := by
    decide +kernel
  obtain ⟨p, reached, facts⟩ := Option.map_eq_some_iff.mp ends
  simp only [Prod.mk.injEq, decide_eq_true_eq] at facts
  obtain ⟨heard, copies, queue, hands⟩ := facts
  have pos : (0 : ℤ) < 2 := by decide
  have told := recording_is_what_vad_hears pos (by decide) built rfl rfl (by decide +kernel)
    reached
  exact ⟨p, reached, heard, told.2.2 copies queue hands⟩

end Runs

end EdgeVoice.Recording
