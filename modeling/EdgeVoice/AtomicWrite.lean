import EdgeVoice.PosixStorage
import EdgeVoice.PythonText

/-! atomic_sf_write against a power cut. `sf.write` makes some writes to the temp file, which
together are the new file, and may raise at any of them. `os.replace` is the rename. Nothing is
synced, so the storage is free to make the rename durable first. -/

namespace EdgeVoice.AtomicWrite
open PythonText PosixStorage StepSystem

/-- A call: `dest.name`, the process id, the file that opening the temp name gives, and what
`sf.write` writes to it. -/
structure Call (ι : Type*) where
  dest : Str
  pid : ℕ
  inode : ι
  patches : List (Patch UInt8)

variable {ι : Type*}

/-- `f".{dest.name}.tmp-{os.getpid()}"`. -/
def Call.tmp (call : Call ι) : Str :=
  '.' :: (call.dest ++ ['.', 't', 'm', 'p', '-'] ++ decimal call.pid)

/-- The complete new file. -/
def Call.new (call : Call ι) : List UInt8 := File.built call.patches

inductive Stage
  | opening
  | writing (rest : List (Patch UInt8))
  | replacing
  | cleaning
  | returned
  | raised

structure World (ι : Type*) where
  disk : Disk Str ι UInt8
  stage : Stage := .opening

/-- What the call does next, what raises in it, and what the storage does meanwhile. -/
inductive Event (ι : Type*)
  | opened
  | wrote
  | closed
  | writeRaised
  | replaced
  | replaceRaised
  | unlinked
  | persisted (inode : ι) (k : ℕ)
  | settled (name : Str)
deriving DecidableEq

variable [DecidableEq ι] (call : Call ι)

def step (w : World ι) (event : Event ι) : Option (World ι) :=
  match event, w.stage with
  | .opened, .opening => some ⟨w.disk.create call.tmp call.inode, .writing call.patches⟩
  | .wrote, .writing (p :: rest) => some ⟨w.disk.write call.inode p, .writing rest⟩
  | .closed, .writing [] => some ⟨w.disk, .replacing⟩
  | .writeRaised, .opening => some ⟨w.disk, .cleaning⟩
  | .writeRaised, .writing _ => some ⟨w.disk, .cleaning⟩
  | .replaced, .replacing => some ⟨w.disk.rename call.tmp call.dest, .returned⟩
  | .replaceRaised, .replacing => some ⟨w.disk, .cleaning⟩
  | .unlinked, .cleaning => some ⟨w.disk.unlink call.tmp, .raised⟩
  | .persisted inode k, stage => some ⟨w.disk.persist inode k, stage⟩
  | .settled name, stage => some ⟨w.disk.settle name, stage⟩
  | _, _ => none

/-- What a step can do. -/
inductive StepCase (w : World ι) : Event ι → World ι → Prop
  | opened (stage : w.stage = .opening) :
    StepCase w .opened ⟨w.disk.create call.tmp call.inode, .writing call.patches⟩
  | wrote (p : Patch UInt8) (rest : List (Patch UInt8)) (stage : w.stage = .writing (p :: rest)) :
    StepCase w .wrote ⟨w.disk.write call.inode p, .writing rest⟩
  | closed (stage : w.stage = .writing []) : StepCase w .closed ⟨w.disk, .replacing⟩
  | failed (event : Event ι) (stage : w.stage ≠ .returned) : StepCase w event ⟨w.disk, .cleaning⟩
  | replaced (stage : w.stage = .replacing) :
    StepCase w .replaced ⟨w.disk.rename call.tmp call.dest, .returned⟩
  | unlinked (stage : w.stage = .cleaning) :
    StepCase w .unlinked ⟨w.disk.unlink call.tmp, .raised⟩
  | persisted (inode : ι) (k : ℕ) :
    StepCase w (.persisted inode k) ⟨w.disk.persist inode k, w.stage⟩
  | settled (name : Str) : StepCase w (.settled name) ⟨w.disk.settle name, w.stage⟩

/-- The storage makes a new entry of the destination durable only when the data of the file
behind it are. -/
def DataFirst (w : World ι) (event : Event ι) : Prop :=
  event = .settled call.dest → ∀ i ∈ w.disk.entry call.dest, (w.disk.files i).Durable

instance (w : World ι) (event : Event ι) : Decidable (DataFirst call w event) := by
  unfold DataFirst
  infer_instance

/-- At every moment of the call, `held` being the file the destination had before it and
`content` what that file holds. -/
structure Sound (held : Option ι) (content : ι → List UInt8) (w : World ι) : Prop where
  previous : ∀ i, held = some i → (w.disk.files i).Durable ∧ (w.disk.files i).content = content i
  before : w.stage ≠ .returned → w.disk.entry call.dest = held ∧ w.disk.onDisk call.dest = held
  writing : ∀ rest, w.stage = .writing rest →
    w.disk.entry call.tmp = some call.inode ∧
      (w.disk.files call.inode).map Prod.fst ++ rest = call.patches
  replacing : w.stage = .replacing →
    w.disk.entry call.tmp = some call.inode ∧
      (w.disk.files call.inode).map Prod.fst = call.patches
  returned : w.stage = .returned →
    w.disk.entry call.dest = some call.inode ∧
      (w.disk.files call.inode).map Prod.fst = call.patches ∧
        (w.disk.onDisk call.dest = held ∨ w.disk.onDisk call.dest = some call.inode)
  raised : w.stage = .raised → w.disk.entry call.tmp = none

/-- The new file is found after a power cut only with all its data. -/
def Whole (w : World ι) : Prop :=
  w.disk.onDisk call.dest = some call.inode → (w.disk.files call.inode).Durable

omit [DecidableEq ι] in
theorem tmp_ne_dest : call.tmp ≠ call.dest := by
  intro same
  have lengths := congrArg List.length same
  simp only [Call.tmp, List.length_cons, List.length_append, List.length_nil] at lengths
  omega

variable {call} {w next : World ι} {event : Event ι}

theorem step_case (stepped : step call w event = some next) : StepCase call w event next := by
  unfold step at stepped
  split at stepped
  · rename_i stage
    cases stepped
    exact .opened stage
  · rename_i p rest stage
    cases stepped
    exact .wrote p rest stage
  · rename_i stage
    cases stepped
    exact .closed stage
  · rename_i stage
    cases stepped
    exact .failed _ (by simp [stage])
  · rename_i stage
    cases stepped
    exact .failed _ (by simp [stage])
  · rename_i stage
    cases stepped
    exact .replaced stage
  · rename_i stage
    cases stepped
    exact .failed _ (by simp [stage])
  · rename_i stage
    cases stepped
    exact .unlinked stage
  · rename_i inode k
    cases stepped
    exact .persisted inode k
  · rename_i name
    cases stepped
    exact .settled name
  · cases stepped

variable {held : Option ι} {content : ι → List UInt8}

/-- The step lemma. -/
theorem Sound.step (h : Sound call held content w) (apart : held ≠ some call.inode)
    (stepped : step call w event = some next) : Sound call held content next := by
  have apart' : ∀ i, held = some i → i ≠ call.inode := by
    rintro i found rfl
    exact apart found
  have names := tmp_ne_dest call
  cases step_case stepped with
  | opened stage =>
    obtain ⟨seen, settled⟩ := h.before (by simp [stage])
    refine ⟨fun i found => ?_, fun _ => ⟨?_, settled⟩, ?_, by simp, by simp, by simp⟩
    · simpa [Disk.create, apart' i found] using h.previous i found
    · simpa [Disk.create, names.symm] using seen
    · rintro rest ⟨⟩
      simp [Disk.create]
  | wrote p rest stage =>
    obtain ⟨seen, settled⟩ := h.before (by simp [stage])
    obtain ⟨temp, written⟩ := h.writing _ stage
    refine ⟨fun i found => ?_, fun _ => ⟨seen, settled⟩, ?_, by simp, by simp, by simp⟩
    · simpa [Disk.write, apart' i found] using h.previous i found
    · rintro later ⟨⟩
      refine ⟨temp, ?_⟩
      rw [← written]
      simp [Disk.write]
  | closed stage =>
    obtain ⟨temp, written⟩ := h.writing _ stage
    rw [List.append_nil] at written
    exact ⟨h.previous, fun _ => h.before (by simp [stage]), by simp, fun _ => ⟨temp, written⟩,
      by simp, by simp⟩
  | failed _ stage =>
    exact ⟨h.previous, fun _ => h.before stage, by simp, by simp, by simp, by simp⟩
  | replaced stage =>
    obtain ⟨temp, written⟩ := h.replacing stage
    obtain ⟨seen, settled⟩ := h.before (by simp [stage])
    refine ⟨h.previous, by simp, by simp, by simp, fun _ => ⟨?_, written, Or.inl settled⟩, by simp⟩
    simpa [Disk.rename, names.symm] using temp
  | unlinked stage =>
    obtain ⟨seen, settled⟩ := h.before (by simp [stage])
    refine ⟨h.previous, fun _ => ⟨?_, settled⟩, by simp, by simp, by simp, by simp [Disk.unlink]⟩
    simpa [Disk.unlink, names.symm] using seen
  | persisted inode k =>
    have patches (i : ι) : ((w.disk.persist inode k).files i).map Prod.fst =
        (w.disk.files i).map Prod.fst := by
      by_cases same : i = inode
      · subst same
        simp [Disk.persist]
      · simp [Disk.persist, same]
    refine ⟨fun i found => ?_, h.before, fun rest stage => ?_, fun stage => ?_, fun stage => ?_,
      h.raised⟩
    · obtain ⟨durable, same⟩ := h.previous i found
      refine ⟨?_, ?_⟩
      · by_cases touched : i = inode
        · subst touched
          simpa [Disk.persist] using File.persist_durable durable k
        · simpa [Disk.persist, touched] using durable
      · simp only [File.content, patches]
        exact same
    · simp only [patches]
      exact h.writing rest stage
    · simp only [patches]
      exact h.replacing stage
    · simp only [patches]
      exact h.returned stage
  | settled name =>
    by_cases own : name = call.dest
    · subst own
      refine ⟨h.previous, fun stage => ?_, h.writing, h.replacing, fun stage => ?_, h.raised⟩
      · obtain ⟨seen, _⟩ := h.before stage
        exact ⟨seen, by simpa [Disk.settle] using seen⟩
      · obtain ⟨seen, written, _⟩ := h.returned stage
        exact ⟨seen, written, Or.inr (by simpa [Disk.settle] using seen)⟩
    · have same : (w.disk.settle name).onDisk call.dest = w.disk.onDisk call.dest := by
        simp [Disk.settle, Ne.symm own]
      refine ⟨h.previous, fun stage => ?_, h.writing, h.replacing, fun stage => ?_, h.raised⟩
      · rw [same]
        exact h.before stage
      · rw [same]
        exact h.returned stage

/-- Where data come first, no step leaves the new file on disk without them. -/
theorem Whole.step (h : Whole call w) (sound : Sound call held content w)
    (apart : held ≠ some call.inode) (first : DataFirst call w event)
    (stepped : step call w event = some next) : Whole call next := by
  have absent (stage : w.stage ≠ .returned) : w.disk.onDisk call.dest ≠ some call.inode := by
    rw [(sound.before stage).2]
    exact apart
  cases step_case stepped with
  | opened stage => exact fun found => absurd found (absent (by simp [stage]))
  | wrote p rest stage => exact fun found => absurd found (absent (by simp [stage]))
  | closed => exact h
  | failed => exact h
  | replaced => exact h
  | unlinked => exact h
  | persisted inode k =>
    intro found
    by_cases touched : call.inode = inode
    · subst touched
      simpa [Disk.persist] using File.persist_durable (h found) k
    · simpa [Disk.persist, touched] using h found
  | settled name =>
    intro found
    by_cases own : name = call.dest
    · subst own
      exact first rfl call.inode (by simpa [Disk.settle] using found)
    · exact h (by simpa [Disk.settle, Ne.symm own] using found)

section Run

variable (call : Call ι) (disk : Disk Str ι UInt8)

omit [DecidableEq ι] in
theorem start_sound (stable : disk.onDisk call.dest = disk.entry call.dest)
    (durable : ∀ i, disk.entry call.dest = some i → (disk.files i).Durable) :
    Sound call (disk.entry call.dest) (fun i => (disk.files i).content) ⟨disk, .opening⟩ :=
  ⟨fun i found => ⟨durable i found, rfl⟩, fun _ => ⟨rfl, stable⟩, by simp, by simp, by simp,
    by simp⟩

/-- From a destination that is durable, or absent: if the storage makes data durable before the
entry, a power cut at any moment leaves the previous file or the complete new one. If the call
raises, the destination is as before, on disk too, and the temp file is gone. -/
theorem never_torn (stable : disk.onDisk call.dest = disk.entry call.dest)
    (durable : ∀ i, disk.entry call.dest = some i → (disk.files i).Durable)
    (apart : disk.entry call.dest ≠ some call.inode) (events : List (Event ι)) (w : World ι)
    (reached : run (step call) ⟨disk, .opening⟩ events = some w) :
    (Along (step call) (DataFirst call) ⟨disk, .opening⟩ events →
      w.disk.onBoot call.dest = disk.read call.dest ∨
        w.disk.onBoot call.dest = some call.new) ∧
      (w.stage = .raised → w.disk.read call.dest = disk.read call.dest ∧
        w.disk.onBoot call.dest = disk.read call.dest ∧ w.disk.entry call.tmp = none) := by
  have start := start_sound call disk stable durable
  have sound : Sound call (disk.entry call.dest) (fun i => (disk.files i).content) w :=
    run_invariant (step call) start (fun _ _ _ h stepped => h.step apart stepped) reached
  -- the previous file is where it was, with what it had
  have kept {entry : Option ι} (same : entry = disk.entry call.dest) :
      (entry.map fun i => (w.disk.files i).content) = disk.read call.dest := by
    rw [same, Disk.read]
    cases held : disk.entry call.dest with
    | none => rfl
    | some i => exact congrArg some (sound.previous i held).2
  have previous (settled : w.disk.onDisk call.dest = disk.entry call.dest) :
      w.disk.onBoot call.dest = disk.read call.dest :=
    (Disk.onBoot_of_held settled fun i found => (sound.previous i found).1).trans (kept rfl)
  constructor
  · intro ordered
    obtain ⟨_, whole⟩ := run_invariant_along (step call)
      (I := fun w => Sound call (disk.entry call.dest) (fun i => (disk.files i).content) w ∧
        Whole call w)
      ⟨start, fun found => absurd (stable.symm.trans found) apart⟩
      (fun _ _ _ h first stepped =>
        ⟨h.1.step apart stepped, h.2.step h.1 apart first stepped⟩) ordered reached
    by_cases done : w.stage = .returned
    · obtain ⟨_, written, old | new⟩ := sound.returned done
      · exact Or.inl (previous old)
      · refine Or.inr ((Disk.onBoot_of_held new ?_).trans ?_)
        · rintro i ⟨⟩
          exact whole new
        · exact congrArg (fun patches => some (File.built patches)) written
    · exact Or.inl (previous (sound.before done).2)
  · intro failed
    obtain ⟨seen, settled⟩ := sound.before (by simp [failed])
    exact ⟨kept seen, previous settled, sound.raised failed⟩

end Run

section TwoBytes

/-- Two bytes in two writes, where there was no file. -/
def twoBytes : Call ℕ := ⟨['a'], 1, 0, [⟨0, [1]⟩, ⟨1, [2]⟩]⟩

def emptyDisk : Disk Str ℕ UInt8 := ⟨fun _ => [], fun _ => none, fun _ => none⟩

/-- The storage keeps both bytes before the entry. -/
theorem twoBytes_kept :
    ∃ w, run (step twoBytes) ⟨emptyDisk, .opening⟩ [.opened, .wrote, .wrote, .closed, .replaced,
      .persisted 0 0, .persisted 0 1, .settled ['a']] = some w ∧
        (w.disk.onBoot ['a'] = none ∨ w.disk.onBoot ['a'] = some [1, 2]) := by
  exact ⟨_, rfl, (never_torn twoBytes emptyDisk rfl (by simp [emptyDisk]) (by simp [emptyDisk])
    [.opened, .wrote, .wrote, .closed, .replaced, .persisted 0 0, .persisted 0 1,
      .settled ['a']] _ rfl).1 (by decide)⟩

/-- The storage keeps the first byte and the entry, and the power is cut. -/
theorem first_byte_only :
    ¬∀ events w, run (step twoBytes) ⟨emptyDisk, .opening⟩ events = some w →
      w.disk.onBoot ['a'] = emptyDisk.read ['a'] ∨ w.disk.onBoot ['a'] = some twoBytes.new := by
  intro whole
  have torn := whole [.opened, .wrote, .wrote, .closed, .replaced, .persisted 0 0, .settled ['a']]
    _ rfl
  revert torn
  decide

end TwoBytes

end EdgeVoice.AtomicWrite
