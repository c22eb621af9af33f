import EdgeVoice.VadWorker

/-! AudioDumpWorker: packets into per-channel rolling WAV files. A file is known by the name
the worker builds for it in its output directory, and every write is taken to succeed. The
threshold is any integer, as `int()` may give one, and a negative slice bound counts from the
end. The inner `while` has fuel: it may run for ever. The log is left out. -/

namespace EdgeVoice.AudioDump
open PythonText Models VadWorker

/-- Why a call does not return: `np.frombuffer` raised, or the fuel is used up. -/
inductive Stuck
  | raised
  | unfinished
deriving DecidableEq

/-- Where the bound of `buffer[:bound]` and `buffer[bound:]` is. -/
def sliceBound (bound : ℤ) (buffer : List UInt8) : ℕ :=
  if 0 ≤ bound then bound.toNat else buffer.length - bound.natAbs

/-- `f"{n:03d}"`. -/
def pad3 (n : ℕ) : Str := (decimal n).leftpad 3 '0'

def segmentName (ch : Str) (segmentId : ℕ) : Str :=
  ch ++ '_' :: (pad3 segmentId ++ ['.', 'w', 'a', 'v'])

def endName (ch : Str) (segmentId : ℕ) : Str :=
  ch ++ '_' :: (pad3 segmentId ++ ['_', 'e', 'n', 'd', '.', 'w', 'a', 'v'])

/-- A channel's buffer and the number of its next file. -/
structure Rolling where
  buffer : List UInt8 := []
  segments : ℕ := 0
deriving DecidableEq

/-- The name of a file and its samples, as handed to `atomic_sf_write`. -/
abbrev Write := Str × List ℤ

/-- The dictionaries' keys in insertion order, and their values. -/
structure Dump where
  channels : List Str := []
  rolling : Str → Rolling := fun _ => {}

variable (threshold : ℤ)

/-- `int(segment_secs * sr * BYTES_PER_SAMPLE)`. -/
def thresholdOf (segmentSecs : ℚ) (sr : ℕ) : ℤ := truncate (segmentSecs * sr * 2)

def flushFullSegment (ch : Str) (r : Rolling) : Except Stuck (Option (Write × Rolling)) :=
  if (r.buffer.length : ℤ) < threshold then .ok none
  else
    match int16Samples (r.buffer.take (sliceBound threshold r.buffer)) with
    | none => .error .raised
    | some segment =>
      .ok (some ((segmentName ch r.segments, segment),
        ⟨r.buffer.drop (sliceBound threshold r.buffer), r.segments + 1⟩))

/-- `while self._flush_full_segment(ch)` gives a segment. -/
def flushFull (ch : Str) : ℕ → Rolling → Except Stuck (List Write × Rolling)
  | 0, _ => .error .unfinished
  | fuel + 1, r =>
    match flushFullSegment threshold ch r with
    | .error stuck => .error stuck
    | .ok none => .ok ([], r)
    | .ok (some (write, rest)) =>
      match flushFull ch fuel rest with
      | .error stuck => .error stuck
      | .ok (later, last) => .ok (write :: later, last)

variable (fuel : ℕ)

/-- One pass of run()'s loop. -/
def handlePacket (dump : Dump) (packet : AudioPacket) : Except Stuck (Dump × List Write) :=
  let ch := packet.channelId
  let known := ch ∈ dump.channels
  let r : Rolling := if known then dump.rolling ch else {}
  match flushFull threshold ch fuel ⟨r.buffer ++ packet.samples, r.segments⟩ with
  | .error stuck => .error stuck
  | .ok (written, r) =>
    .ok (⟨if known then dump.channels else dump.channels ++ [ch],
      Function.update dump.rolling ch r⟩, written)

def handlePackets (packets : List AudioPacket) : Except Stuck (Dump × List Write) :=
  packets.foldlM
    (fun handled packet =>
      (handlePacket threshold fuel handled.1 packet).map fun next =>
        (next.1, handled.2 ++ next.2))
    ({}, [])

def flushEnd (dump : Dump) (ch : Str) : Except Stuck (List Write) :=
  let r := dump.rolling ch
  if r.buffer = [] then .ok []
  else
    match int16Samples r.buffer with
    | none => .error .raised
    | some segment => .ok [(endName ch r.segments, segment)]

/-- `for ch in list(self._buffers): self._flush_end(ch)`. -/
def flushEnds (dump : Dump) : List Str → Except Stuck (List Write)
  | [] => .ok []
  | ch :: rest =>
    match flushEnd dump ch with
    | .error stuck => .error stuck
    | .ok write => (flushEnds dump rest).map (write ++ ·)

/-- `run()` on the packets it dequeues before it is stopped: the writes in order. -/
def run (packets : List AudioPacket) : Except Stuck (List Write) :=
  match handlePackets threshold fuel packets with
  | .error stuck => .error stuck
  | .ok (dump, written) => (flushEnds dump dump.channels).map (written ++ ·)

/-- The data bytes of a PCM_16 WAV file, little-endian. -/
def pcm16 : List ℤ → List UInt8
  | [] => []
  | sample :: rest =>
    .ofNat (sample % 65536).toNat :: .ofNat ((sample % 65536).toNat / 256) :: pcm16 rest

/-- The bytes of a channel's packets. -/
def bytesOn (c : Str) (packets : List AudioPacket) : List UInt8 :=
  (packets.filter (·.channelId = c)).flatMap AudioPacket.samples

section Names

theorem pad3_injective : Function.Injective pad3 := by
  intro m n same
  have read := congrArg (Nat.ofDigitChars 10 · 0) same
  simpa [pad3, List.leftpad, decimal, Nat.ofDigitChars_append, Nat.ofDigitChars_replicate_zero]
    using read

theorem underscore_notMem_pad3 (n : ℕ) : '_' ∉ pad3 n := by
  intro member
  rcases List.mem_append.mp member with zero | digit
  · exact absurd (List.eq_of_mem_replicate zero) (by decide)
  · have digit := Nat.isDigit_of_mem_toDigits (by norm_num) (by norm_num) digit
    exact absurd digit (by decide)

theorem segmentName_inj {c d : Str} {m n : ℕ} (same : segmentName c m = segmentName d n) :
    c = d ∧ m = n := by
  have clear (k : ℕ) : '_' ∉ pad3 k ++ ['.', 'w', 'a', 'v'] := by
    simp [underscore_notMem_pad3]
  obtain ⟨channel, text⟩ := append_sep_inj (clear m) (clear n) same
  exact ⟨channel, pad3_injective (List.append_cancel_right text)⟩

theorem endName_inj {c d : Str} {m n : ℕ} (same : endName c m = endName d n) :
    c = d ∧ m = n := by
  have split (c : Str) (k : ℕ) :
      endName c k = (c ++ '_' :: pad3 k) ++ '_' :: ['e', 'n', 'd', '.', 'w', 'a', 'v'] := by
    simp [endName]
  rw [split c m, split d n] at same
  obtain ⟨channel, text⟩ := append_sep_inj (underscore_notMem_pad3 m) (underscore_notMem_pad3 n)
    (append_sep_inj (by decide) (by decide) same).1
  exact ⟨channel, pad3_injective text⟩

theorem segmentName_ne_endName (c d : Str) (m n : ℕ) : segmentName c m ≠ endName d n := by
  intro same
  have clear : '_' ∉ pad3 m ++ ['.', 'w', 'a', 'v'] := by
    simp [underscore_notMem_pad3]
  have split : endName d n = (d ++ '_' :: pad3 n) ++ '_' :: ['e', 'n', 'd', '.', 'w', 'a', 'v'] := by
    simp [endName]
  rw [split] at same
  have text := (append_sep_inj clear (by decide) same).2
  have digit : 'd' ∈ pad3 m := by
    have ending : pad3 m ++ ['.', 'w', 'a', 'v'] = ['e', 'n', 'd'] ++ ['.', 'w', 'a', 'v'] := text
    rw [List.append_cancel_right ending]
    decide
  rcases List.mem_append.mp digit with zero | digit
  · exact absurd (List.eq_of_mem_replicate zero) (by decide)
  · have digit := Nat.isDigit_of_mem_toDigits (by norm_num) (by norm_num) digit
    exact absurd digit (by decide)

end Names

section Bytes

/-- A sample's word is found again. -/
theorem word_of_sample {word : ℕ} (small : word < 65536) :
    ((if (word : ℤ) < 32768 then (word : ℤ) else word - 65536) % 65536).toNat = word := by
  split <;> omega

/-- What `np.frombuffer` reads is written back as it was. -/
theorem pcm16_int16Samples {bytes : List UInt8} {samples : List ℤ}
    (read : int16Samples bytes = some samples) : pcm16 samples = bytes := by
  induction bytes using int16Samples.induct generalizing samples with
  | case1 =>
    cases read
    rfl
  | case2 => cases read
  | case3 low high rest ih =>
    obtain ⟨later, readLater, rfl⟩ := Option.map_eq_some_iff.mp read
    have lowByte := low.toNat_lt
    have highByte := high.toNat_lt
    have found := @word_of_sample (low.toNat + 256 * high.toNat) (by omega)
    push_cast at found
    have first : UInt8.ofNat (low.toNat + 256 * high.toNat) = low := by
      apply UInt8.toNat_inj.mp
      rw [UInt8.toNat_ofNat']
      omega
    have second : UInt8.ofNat ((low.toNat + 256 * high.toNat) / 256) = high := by
      apply UInt8.toNat_inj.mp
      rw [UInt8.toNat_ofNat']
      omega
    rw [pcm16, found, first, second, ih readLater]

theorem even_pcm16 (samples : List ℤ) : Even (pcm16 samples).length := by
  induction samples with
  | nil => exact Even.zero
  | cons sample rest ih =>
    rw [pcm16, List.length_cons, List.length_cons, Nat.even_add_one, Nat.even_add_one, not_not]
    exact ih

theorem even_flatMap {α : Type*} {xs : List α} {f : α → List UInt8}
    (all : ∀ x ∈ xs, Even (f x).length) : Even (xs.flatMap f).length := by
  induction xs with
  | nil => exact Even.zero
  | cons x xs ih =>
    rw [List.flatMap_cons, List.length_append]
    exact (all x (by simp)).add (ih fun y member => all y (by simp [member]))

theorem bytesOn_concat (c : Str) (past : List AudioPacket) (packet : AudioPacket) :
    bytesOn c (past ++ [packet]) =
      bytesOn c past ++ if packet.channelId = c then packet.samples else [] := by
  by_cases own : packet.channelId = c <;> simp [bytesOn, own]

theorem even_bytesOn (c : Str) {packets : List AudioPacket}
    (even : ∀ packet ∈ packets, Even packet.samples.length) : Even (bytesOn c packets).length :=
  even_flatMap fun packet member => even packet (List.mem_filter.mp member).1

end Bytes

section Loop

variable {threshold fuel} {ch : Str} {r : Rolling}

/-- Files of one channel under consecutive numbers. -/
def numbered (ch : Str) (first : ℕ) (segments : List (List ℤ)) : List Write :=
  (segments.zipIdx first).map fun entry => (segmentName ch entry.2, entry.1)

theorem mem_numbered {first : ℕ} {segments : List (List ℤ)} {name : Str} {segment : List ℤ} :
    (name, segment) ∈ numbered ch first segments ↔
      ∃ n, name = segmentName ch (first + n) ∧ segments[n]? = some segment := by
  simp only [numbered, List.mem_map, Prod.mk.injEq]
  constructor
  · rintro ⟨⟨other, index⟩, member, rfl, rfl⟩
    obtain ⟨after, found⟩ := List.mk_mem_zipIdx_iff_le_and_getElem?_sub.mp member
    exact ⟨index - first, by rw [Nat.add_sub_cancel' after], found⟩
  · rintro ⟨n, rfl, found⟩
    refine ⟨(segment, first + n), ?_, rfl, rfl⟩
    rw [List.mk_mem_zipIdx_iff_le_and_getElem?_sub, Nat.add_sub_cancel_left]
    exact ⟨Nat.le_add_right first n, found⟩

theorem numbered_nodup (ch : Str) (first : ℕ) (segments : List (List ℤ)) :
    ((numbered ch first segments).map Prod.fst).Nodup := by
  have names : (numbered ch first segments).map Prod.fst =
      (List.range' first segments.length).map (segmentName ch) := by
    rw [← List.zipIdx_map_snd, numbered, List.map_map, List.map_map]
    rfl
  rw [names]
  exact (List.nodup_range' (s := first)).map fun m n same => (segmentName_inj same).2

theorem sliceBound_of_pos (pos : 0 < threshold) (buffer : List UInt8) :
    sliceBound threshold buffer = threshold.toNat :=
  if_pos pos.le

/-- All that the inner loop does if it returns: it cuts the buffer into full files and a rest
that is too short for one. -/
theorem flushFull_spec (pos : 0 < threshold) {written : List Write} {rest : Rolling}
    (returned : flushFull threshold ch fuel r = .ok (written, rest)) :
    ∃ segments : List (List ℤ), r.buffer = segments.flatMap pcm16 ++ rest.buffer ∧
      (∀ segment ∈ segments, ((pcm16 segment).length : ℤ) = threshold) ∧
      (rest.buffer.length : ℤ) < threshold ∧ rest.segments = r.segments + segments.length ∧
      written = numbered ch r.segments segments := by
  induction fuel generalizing r written with
  | zero => simp [flushFull] at returned
  | succ fuel ih =>
    simp only [flushFull, flushFullSegment, sliceBound_of_pos pos] at returned
    by_cases short : (r.buffer.length : ℤ) < threshold
    · simp only [if_pos short, Except.ok.injEq, Prod.mk.injEq] at returned
      obtain ⟨rfl, rfl⟩ := returned
      exact ⟨[], rfl, by simp, short, rfl, rfl⟩
    · simp only [if_neg short] at returned
      cases read : int16Samples (r.buffer.take threshold.toNat) with
      | none => simp [read] at returned
      | some segment =>
        simp only [read] at returned
        cases onward : flushFull threshold ch fuel
            ⟨r.buffer.drop threshold.toNat, r.segments + 1⟩ with
        | error stuck => simp [onward] at returned
        | ok next =>
          obtain ⟨later, last⟩ := next
          simp only [onward, Except.ok.injEq, Prod.mk.injEq] at returned
          obtain ⟨rfl, rfl⟩ := returned
          obtain ⟨segments, whole, full, left, count, same⟩ := ih onward
          have bytes := pcm16_int16Samples read
          refine ⟨segment :: segments, ?_, ?_, left, ?_, ?_⟩
          · rw [List.flatMap_cons, List.append_assoc, ← whole, bytes]
            exact (List.take_append_drop _ _).symm
          · intro other member
            rcases List.mem_cons.mp member with rfl | member
            · rw [bytes, List.length_take]
              omega
            · exact full other member
          · rw [count, List.length_cons]
            simp only
            omega
          · rw [same]
            rfl

/-- The inner loop returns when the threshold is a number of samples, or out of reach. -/
theorem flushFull_returns (pos : 0 < threshold) (even : Even r.buffer.length)
    (fits : Even threshold ∨ (r.buffer.length : ℤ) < threshold)
    (enough : r.buffer.length < fuel) :
    ∃ written rest, flushFull threshold ch fuel r = .ok (written, rest) := by
  induction fuel generalizing r with
  | zero => omega
  | succ fuel ih =>
    simp only [flushFull, flushFullSegment, sliceBound_of_pos pos]
    by_cases short : (r.buffer.length : ℤ) < threshold
    · simp only [if_pos short]
      exact ⟨[], r, rfl⟩
    · have whole : Even threshold.toNat := by
        have even := fits.resolve_right short
        rwa [← Int.toNat_of_nonneg pos.le, Int.even_coe_nat] at even
      have taken : Even (r.buffer.take threshold.toNat).length := by
        rw [List.length_take, Nat.min_eq_left (by omega)]
        exact whole
      obtain ⟨segment, read⟩ := Option.isSome_iff_exists.mp
        ((int16Samples_isSome _).mpr taken)
      obtain ⟨written, rest, onward⟩ := @ih
        ⟨r.buffer.drop threshold.toNat, r.segments + 1⟩
        (by
          rw [List.length_drop]
          exact (Nat.even_sub (by omega)).mpr (by simp [even, whole]))
        (Or.inl (fits.resolve_right short))
        (by
          rw [List.length_drop]
          omega)
      simp only [if_neg short, read, onward]
      exact ⟨_, _, rfl⟩

/-- With no threshold above zero the inner loop never returns. -/
theorem flushFull_nonpos (low : threshold ≤ 0) :
    ∀ result, flushFull threshold ch fuel r ≠ .ok result := by
  induction fuel generalizing r with
  | zero => simp [flushFull]
  | succ fuel ih =>
    intro result returned
    have long : ¬(r.buffer.length : ℤ) < threshold := by omega
    simp only [flushFull, flushFullSegment, if_neg long] at returned
    cases read : int16Samples (r.buffer.take (sliceBound threshold r.buffer)) with
    | none => simp [read] at returned
    | some segment =>
      simp only [read] at returned
      cases onward : flushFull threshold ch fuel
          ⟨r.buffer.drop (sliceBound threshold r.buffer), r.segments + 1⟩ with
      | error stuck => simp [onward] at returned
      | ok next => exact ih next onward

end Loop

section Packets

variable {threshold fuel} {packets : List AudioPacket}

theorem bind_eq_ok {ε α β : Type} {x : Except ε α} {f : α → Except ε β} {b : β} :
    x >>= f = .ok b ↔ ∃ a, x = .ok a ∧ f a = .ok b := by
  cases x with
  | error stuck => simp [bind, Except.bind]
  | ok a => simp [bind, Except.bind]

theorem map_eq_ok {ε α β : Type} {x : Except ε α} {f : α → β} {b : β} :
    x.map f = .ok b ↔ ∃ a, x = .ok a ∧ f a = b := by
  cases x with
  | error stuck => simp [Except.map]
  | ok a => simp [Except.map]

theorem handlePackets_concat {past : List AudioPacket} {packet : AudioPacket}
    {handled : Dump × List Write} :
    handlePackets threshold fuel (past ++ [packet]) = .ok handled ↔
      ∃ before now, handlePackets threshold fuel past = .ok before ∧
        handlePacket threshold fuel before.1 packet = .ok now ∧
          (now.1, before.2 ++ now.2) = handled := by
  rw [handlePackets, List.foldlM_append, bind_eq_ok]
  simp only [List.foldlM_cons, List.foldlM_nil, bind_pure, map_eq_ok]
  constructor
  · rintro ⟨before, first, now, second, same⟩
    exact ⟨before, now, first, second, same⟩
  · rintro ⟨before, now, first, second, same⟩
    exact ⟨before, first, now, second, same⟩

/-- What the packets handled so far have left in the buffers and in the files. -/
structure Stored (threshold : ℤ) (packets : List AudioPacket) (dump : Dump)
    (written : List Write) (segments : Str → List (List ℤ)) : Prop where
  listed : ∀ c, c ∈ dump.channels ↔ ∃ packet ∈ packets, packet.channelId = c
  distinct : dump.channels.Nodup
  fresh : ∀ c, c ∉ dump.channels → dump.rolling c = {}
  counted : ∀ c, (dump.rolling c).segments = (segments c).length
  account : ∀ c, bytesOn c packets = (segments c).flatMap pcm16 ++ (dump.rolling c).buffer
  full : ∀ c, ∀ segment ∈ segments c, ((pcm16 segment).length : ℤ) = threshold
  short : ∀ c, ((dump.rolling c).buffer.length : ℤ) < threshold
  files : ∀ name segment, (name, segment) ∈ written ↔
    ∃ c n, name = segmentName c n ∧ (segments c)[n]? = some segment
  once : (written.map Prod.fst).Nodup

theorem Stored.none (pos : 0 < threshold) : Stored threshold [] {} [] fun _ => [] := by
  constructor <;> simp [bytesOn, pos]

theorem Stored.known {dump : Dump} {written : List Write} {segments : Str → List (List ℤ)}
    (h : Stored threshold packets dump written segments) (c : Str) :
    (if c ∈ dump.channels then dump.rolling c else {}) = dump.rolling c := by
  by_cases member : c ∈ dump.channels
  · rw [if_pos member]
  · rw [if_neg member, h.fresh c member]

/-- The step lemma. -/
theorem Stored.step {dump next : Dump} {written now : List Write}
    {segments : Str → List (List ℤ)} (h : Stored threshold packets dump written segments)
    (pos : 0 < threshold) (packet : AudioPacket)
    (returned : handlePacket threshold fuel dump packet = .ok (next, now)) :
    ∃ after, Stored threshold (packets ++ [packet]) next (written ++ now) after := by
  simp only [handlePacket, h.known] at returned
  cases looped : flushFull threshold packet.channelId fuel
      ⟨(dump.rolling packet.channelId).buffer ++ packet.samples,
        (dump.rolling packet.channelId).segments⟩ with
  | error stuck => simp [looped] at returned
  | ok result =>
    obtain ⟨flushed, rest⟩ := result
    simp only [looped, Except.ok.injEq, Prod.mk.injEq] at returned
    obtain ⟨rfl, rfl⟩ := returned
    obtain ⟨more, whole, full, short, count, names⟩ := flushFull_spec pos looped
    simp only at whole count names
    have first : (dump.rolling packet.channelId).segments =
        (segments packet.channelId).length := h.counted _
    have listed (c : Str) : c ∈ (if packet.channelId ∈ dump.channels then dump.channels
        else dump.channels ++ [packet.channelId]) ↔ c ∈ dump.channels ∨ packet.channelId = c := by
      by_cases member : packet.channelId ∈ dump.channels
      · rw [if_pos member]
        constructor
        · exact Or.inl
        · rintro (old | rfl)
          · exact old
          · exact member
      · rw [if_neg member, List.mem_append, List.mem_singleton, eq_comm (a := c)]
    refine ⟨Function.update segments packet.channelId (segments packet.channelId ++ more),
      ⟨?_, ?_, ?_, ?_, ?_, ?_, ?_, ?_, ?_⟩⟩
    · intro c
      rw [listed, h.listed]
      simp [or_and_right, exists_or]
    · by_cases member : packet.channelId ∈ dump.channels
      · simp only [if_pos member]
        exact h.distinct
      · simp only [if_neg member]
        rw [← List.concat_eq_append]
        exact h.distinct.concat member
    · intro c absent
      rw [listed, not_or] at absent
      simp only [Function.update_of_ne (Ne.symm absent.2)]
      exact h.fresh c absent.1
    · intro c
      by_cases own : c = packet.channelId
      · subst own
        simp [count, h.counted]
      · simp [own, h.counted]
    · intro c
      rw [bytesOn_concat, h.account]
      by_cases own : c = packet.channelId
      · subst own
        simp only [if_true, Function.update_self, List.flatMap_append, List.append_assoc]
        rw [whole]
      · simp [own, Ne.symm own]
    · intro c
      by_cases own : c = packet.channelId
      · subst own
        rw [Function.update_self]
        intro segment member
        rcases List.mem_append.mp member with old | new
        · exact h.full _ segment old
        · exact full segment new
      · rw [Function.update_of_ne own]
        exact h.full c
    · intro c
      by_cases own : c = packet.channelId
      · subst own
        simpa using short
      · simpa [own] using h.short c
    · intro name segment
      rw [List.mem_append, h.files, names, first, mem_numbered]
      constructor
      · rintro (⟨c, n, rfl, found⟩ | ⟨n, rfl, found⟩)
        · refine ⟨c, n, rfl, ?_⟩
          by_cases own : c = packet.channelId
          · subst own
            rw [Function.update_self]
            have inside := List.getElem?_eq_some_iff.mp found
            rwa [List.getElem?_append_left inside.1]
          · rwa [Function.update_of_ne own]
        · refine ⟨_, _, rfl, ?_⟩
          rw [Function.update_self, List.getElem?_append_right (Nat.le_add_right _ _),
            Nat.add_sub_cancel_left]
          exact found
      · rintro ⟨c, n, rfl, found⟩
        by_cases own : c = packet.channelId
        · subst own
          rw [Function.update_self] at found
          by_cases old : n < (segments packet.channelId).length
          · rw [List.getElem?_append_left old] at found
            exact Or.inl ⟨_, n, rfl, found⟩
          · rw [List.getElem?_append_right (not_lt.mp old)] at found
            exact Or.inr ⟨_, by rw [Nat.add_sub_cancel' (not_lt.mp old)], found⟩
        · rw [Function.update_of_ne own] at found
          exact Or.inl ⟨c, n, rfl, found⟩
    · rw [List.map_append, List.nodup_append]
      refine ⟨h.once, names ▸ numbered_nodup _ _ _, ?_⟩
      intro name old other new
      rintro rfl
      obtain ⟨⟨_, segment⟩, early, rfl⟩ := List.mem_map.mp old
      obtain ⟨⟨_, later⟩, late, same⟩ := List.mem_map.mp new
      obtain ⟨c, m, built, found⟩ := (h.files _ _).mp early
      rw [names, first, mem_numbered] at late
      obtain ⟨n, rebuilt, _⟩ := late
      obtain ⟨rfl, index⟩ := segmentName_inj (built.symm.trans (same.symm.trans rebuilt))
      have inside := (List.getElem?_eq_some_iff.mp found).1
      omega

theorem Stored.buffer_le {dump : Dump} {written : List Write} {segments : Str → List (List ℤ)}
    (h : Stored threshold packets dump written segments) (c : Str) :
    (dump.rolling c).buffer.length ≤ (bytesOn c packets).length := by
  rw [h.account, List.length_append]
  exact Nat.le_add_left _ _

theorem Stored.even {dump : Dump} {written : List Write} {segments : Str → List (List ℤ)}
    (h : Stored threshold packets dump written segments)
    (even : ∀ packet ∈ packets, Even packet.samples.length) (c : Str) :
    Even (dump.rolling c).buffer.length := by
  have all := even_bytesOn c even
  rw [h.account, List.length_append, Nat.even_add] at all
  exact all.mp (even_flatMap fun segment _ => even_pcm16 segment)

/-- The run lemma. -/
theorem handlePackets_stored (pos : 0 < threshold) {handled : Dump × List Write}
    (returned : handlePackets threshold fuel packets = .ok handled) :
    ∃ segments, Stored threshold packets handled.1 handled.2 segments := by
  induction packets using List.reverseRecOn generalizing handled with
  | nil =>
    cases returned
    exact ⟨_, Stored.none pos⟩
  | append_singleton past packet ih =>
    obtain ⟨before, now, first, second, rfl⟩ := handlePackets_concat.mp returned
    obtain ⟨segments, stored⟩ := ih first
    exact stored.step pos packet second

/-- Every packet is handled where the threshold is a number of samples, or out of reach. -/
theorem handlePackets_returns (pos : 0 < threshold)
    (even : ∀ packet ∈ packets, Even packet.samples.length)
    (fits : Even threshold ∨ ∀ c, ((bytesOn c packets).length : ℤ) < threshold)
    (enough : ∀ c, (bytesOn c packets).length < fuel) :
    ∃ handled, handlePackets threshold fuel packets = .ok handled := by
  induction packets using List.reverseRecOn with
  | nil => exact ⟨_, rfl⟩
  | append_singleton past packet ih =>
    have more (c : Str) : (bytesOn c past).length ≤ (bytesOn c (past ++ [packet])).length := by
      rw [bytesOn_concat, List.length_append]
      exact Nat.le_add_right _ _
    have evenPast : ∀ packet ∈ past, Even packet.samples.length := fun other member =>
      even other (List.mem_append_left _ member)
    obtain ⟨before, first⟩ := ih evenPast
      (fits.imp_right fun short c => lt_of_le_of_lt (by exact_mod_cast more c) (short c))
      fun c => (more c).trans_lt (enough c)
    obtain ⟨segments, stored⟩ := handlePackets_stored pos first
    have room : ((before.1.rolling packet.channelId).buffer ++ packet.samples).length ≤
        (bytesOn packet.channelId (past ++ [packet])).length := by
      rw [bytesOn_concat, if_pos rfl, List.length_append, List.length_append]
      exact Nat.add_le_add_right (stored.buffer_le _) _
    have whole : Even ((before.1.rolling packet.channelId).buffer ++ packet.samples).length := by
      rw [List.length_append]
      exact (stored.even evenPast _).add (even packet (by simp))
    obtain ⟨written, rest, looped⟩ := @flushFull_returns threshold fuel packet.channelId
      ⟨(before.1.rolling packet.channelId).buffer ++ packet.samples,
        (before.1.rolling packet.channelId).segments⟩ pos whole
      (fits.imp_right fun short => lt_of_le_of_lt (by exact_mod_cast room) (short _))
      (room.trans_lt (enough _))
    have second : ∃ now, handlePacket threshold fuel before.1 packet = .ok now := by
      simp only [handlePacket, stored.known, looped]
      exact ⟨_, rfl⟩
    obtain ⟨now, second⟩ := second
    exact ⟨_, handlePackets_concat.mpr ⟨before, now, first, second, rfl⟩⟩

/-- The trailing file of a channel, if it has bytes left. -/
def tail (dump : Dump) (ch : Str) : List Write :=
  match int16Samples (dump.rolling ch).buffer with
  | none => []
  | some segment => if segment = [] then [] else [(endName ch (dump.rolling ch).segments, segment)]

theorem flushEnds_eq {dump : Dump} (even : ∀ c, Even (dump.rolling c).buffer.length)
    (channels : List Str) : flushEnds dump channels = .ok (channels.flatMap (tail dump)) := by
  induction channels with
  | nil => rfl
  | cons ch channels ih =>
    obtain ⟨segment, read⟩ := Option.isSome_iff_exists.mp ((int16Samples_isSome _).mpr (even ch))
    have bytes := pcm16_int16Samples read
    have last : flushEnd dump ch = .ok (tail dump ch) := by
      by_cases empty : (dump.rolling ch).buffer = []
      · simp [flushEnd, tail, empty, int16Samples]
      · have nonempty : segment ≠ [] := by
          rintro rfl
          exact empty bytes.symm
        simp [flushEnd, tail, empty, read, nonempty]
    rw [flushEnds, last, ih]
    rfl

theorem mem_tail {dump : Dump} {ch name : Str} {segment : List ℤ} :
    (name, segment) ∈ tail dump ch ↔ name = endName ch (dump.rolling ch).segments ∧
      int16Samples (dump.rolling ch).buffer = some segment ∧ segment ≠ [] := by
  unfold tail
  cases read : int16Samples (dump.rolling ch).buffer with
  | none => simp
  | some samples =>
    by_cases empty : samples = []
    · simp only [empty, if_true, List.not_mem_nil, false_iff, Option.some.injEq]
      rintro ⟨_, rfl, nonempty⟩
      exact nonempty rfl
    · simp only [if_neg empty, List.mem_singleton, Prod.mk.injEq, Option.some.injEq]
      constructor
      · rintro ⟨rfl, rfl⟩
        exact ⟨rfl, rfl, empty⟩
      · rintro ⟨rfl, rfl, _⟩
        exact ⟨rfl, rfl⟩

/-- No channel's trailing file is written twice. -/
theorem tails_nodup (dump : Dump) {channels : List Str} (distinct : channels.Nodup) :
    ((channels.flatMap (tail dump)).map Prod.fst).Nodup := by
  rw [List.map_flatMap, List.nodup_flatMap]
  constructor
  · intro ch _
    unfold tail
    split
    · simp
    · split
      · simp
      · simp
  · refine distinct.imp fun {c d} apart name first second => apart ?_
    obtain ⟨⟨_, _⟩, inFirst, rfl⟩ := List.mem_map.mp first
    obtain ⟨⟨_, _⟩, inSecond, same⟩ := List.mem_map.mp second
    have names := (mem_tail.mp inSecond).1.symm.trans (same.trans (mem_tail.mp inFirst).1)
    exact (endName_inj names).1.symm

/-- The worker from its first packet to its last file. -/
theorem run_stored (pos : 0 < threshold) (even : ∀ packet ∈ packets, Even packet.samples.length)
    {handled : Dump × List Write} (returned : handlePackets threshold fuel packets = .ok handled) :
    ∃ segments, Stored threshold packets handled.1 handled.2 segments ∧
      run threshold fuel packets =
        .ok (handled.2 ++ handled.1.channels.flatMap (tail handled.1)) := by
  obtain ⟨segments, stored⟩ := handlePackets_stored pos returned
  refine ⟨segments, stored, ?_⟩
  rw [run, returned]
  simp only [flushEnds_eq (stored.even even)]
  rfl

end Packets

/-- With a threshold of whole samples, and packets of whole samples on any channels: every run
returns, no file is written twice, and a channel's files in the order of their numbers, the
trailing one last, hold the bytes of its packets. -/
theorem dump_reproduces {threshold : ℤ} (pos : 0 < threshold) (whole : Even threshold)
    (packets : List AudioPacket) (even : ∀ packet ∈ packets, Even packet.samples.length) :
    ∃ enough, ∀ fuel, enough ≤ fuel → ∃ writes, run threshold fuel packets = .ok writes ∧
      (writes.map Prod.fst).Nodup ∧
      ∀ c, ∃ (segments : List (List ℤ)) (last : List ℤ),
        (∀ n segment, (segmentName c n, segment) ∈ writes ↔ segments[n]? = some segment) ∧
        (∀ n segment, (endName c n, segment) ∈ writes ↔
          n = segments.length ∧ segment = last ∧ last ≠ []) ∧
        (∀ segment ∈ segments, ((pcm16 segment).length : ℤ) = threshold) ∧
        ((pcm16 last).length : ℤ) < threshold ∧
        (segments ++ [last]).flatMap pcm16 = bytesOn c packets := by
  refine ⟨(packets.flatMap AudioPacket.samples).length + 1, fun fuel enough => ?_⟩
  have bound (c : Str) : (bytesOn c packets).length < fuel := by
    have part : (bytesOn c packets).length ≤ (packets.flatMap AudioPacket.samples).length :=
      (List.filter_sublist.flatMap _).length_le
    omega
  obtain ⟨handled, returned⟩ := handlePackets_returns pos even (Or.inl whole) bound
  obtain ⟨segments, stored, writes⟩ := run_stored pos even returned
  refine ⟨_, writes, ?_, fun c => ?_⟩
  · rw [List.map_append, List.nodup_append]
    refine ⟨stored.once, tails_nodup _ stored.distinct, ?_⟩
    rintro name early _ late rfl
    obtain ⟨⟨_, _⟩, inWritten, rfl⟩ := List.mem_map.mp early
    obtain ⟨⟨_, _⟩, inTails, same⟩ := List.mem_map.mp late
    obtain ⟨d, _, inTail⟩ := List.mem_flatMap.mp inTails
    obtain ⟨c, n, named, _⟩ := (stored.files _ _).mp inWritten
    exact segmentName_ne_endName c d n _ (named.symm.trans (same.symm.trans (mem_tail.mp inTail).1))
  · obtain ⟨last, read⟩ := Option.isSome_iff_exists.mp
      ((int16Samples_isSome _).mpr (stored.even even c))
    have bytes := pcm16_int16Samples read
    refine ⟨segments c, last, fun n segment => ?_, fun n segment => ?_, stored.full c, ?_, ?_⟩
    · rw [List.mem_append, stored.files]
      constructor
      · rintro (⟨d, m, same, found⟩ | late)
        · obtain ⟨rfl, rfl⟩ := segmentName_inj same
          exact found
        · obtain ⟨d, _, inTail⟩ := List.mem_flatMap.mp late
          exact absurd (mem_tail.mp inTail).1 (segmentName_ne_endName c d n _)
      · intro found
        exact Or.inl ⟨c, n, rfl, found⟩
    · rw [List.mem_append, stored.files, List.mem_flatMap, ← stored.counted]
      constructor
      · rintro (⟨d, m, same, _⟩ | ⟨d, _, inTail⟩)
        · exact absurd same.symm (segmentName_ne_endName d c m n)
        · obtain ⟨same, found, nonempty⟩ := mem_tail.mp inTail
          obtain ⟨rfl, rfl⟩ := endName_inj same
          obtain rfl := Option.some.inj (read.symm.trans found)
          exact ⟨rfl, rfl, nonempty⟩
      · rintro ⟨rfl, same, nonempty⟩
        have listed : c ∈ handled.1.channels := by
          by_contra absent
          rw [stored.fresh c absent] at bytes
          cases last with
          | nil => exact nonempty rfl
          | cons sample rest => simp [pcm16] at bytes
        exact Or.inr ⟨c, listed, mem_tail.mpr ⟨rfl, same ▸ read, same ▸ nonempty⟩⟩
    · rw [bytes]
      exact stored.short c
    · rw [List.flatMap_append, stored.account, List.flatMap_singleton, bytes]

/-- Three samples on one channel, two to a file, with one on another channel between them. -/
def interleaved : List AudioPacket :=
  [⟨['r'], 0, [1, 0, 2, 0]⟩, ⟨['t'], 0, [3, 0]⟩, ⟨['r'], 1, [4, 0]⟩]

theorem interleaved_reproduced :
    ∃ enough, ∀ fuel, enough ≤ fuel → ∃ writes, run 4 fuel interleaved = .ok writes ∧
      (writes.map Prod.fst).Nodup := by
  obtain ⟨enough, returns⟩ := @dump_reproduces 4 (by decide) (by decide) interleaved (by decide)
  refine ⟨enough, fun fuel more => ?_⟩
  obtain ⟨writes, returned, once, _⟩ := returns fuel more
  exact ⟨writes, returned, once⟩

end EdgeVoice.AudioDump
