import Mathlib.Data.List.Basic
import Mathlib.Logic.Function.Basic

/-! A file system and the disk below it. Programs see every change at once. The storage makes
written data and directory entries durable in its own time, and a power cut leaves what is
durable by then. Of the data that is not, any part is lost: a write may be given as any number
of patches. -/

namespace EdgeVoice.PosixStorage

/-- Some data, and where in the file it is written. -/
structure Patch (β : Type*) where
  offset : ℕ
  data : List β

/-- The patches of a file in order, and whether each is durable. -/
abbrev File (β : Type*) := List (Patch β × Bool)

namespace File

variable {β : Type*} {f : File β}

def Durable (f : File β) : Prop := ∀ entry ∈ f, entry.2 = true

instance : Decidable f.Durable := by unfold Durable; infer_instance

/-- The storage makes one patch durable. -/
def persist (f : File β) (k : ℕ) : File β := f.modify k fun entry => (entry.1, true)

@[simp] theorem persist_patches (k : ℕ) : (f.persist k).map Prod.fst = f.map Prod.fst := by
  rw [persist]
  induction f generalizing k with
  | nil => simp
  | cons entry f ih => cases k <;> simp [ih]

theorem persist_durable (durable : f.Durable) (k : ℕ) : (f.persist k).Durable := by
  intro entry member
  rw [persist] at member
  obtain ⟨i, inside, rfl⟩ := List.getElem_of_mem member
  rw [List.getElem_modify]
  split
  · rfl
  · exact durable _ (List.getElem_mem _)

variable [Zero β]

/-- The content with the patch in it; a gap reads as zeros. -/
def applyPatch (content : List β) (p : Patch β) : List β :=
  (content ++ List.replicate (p.offset - content.length) 0).take p.offset ++ p.data ++
    content.drop (p.offset + p.data.length)

/-- What a list of patches writes. -/
def built (patches : List (Patch β)) : List β := patches.foldl applyPatch []

def content (f : File β) : List β := built (f.map Prod.fst)

/-- What is left of the file after a power cut. -/
def survives (f : File β) : List β := built ((f.filter Prod.snd).map Prod.fst)

theorem survives_of_durable (durable : f.Durable) : f.survives = f.content := by
  rw [survives, List.filter_eq_self.mpr durable, content]

end File

/-- The files, the directory that programs see, and the one a power cut leaves. -/
structure Disk (ν ι β : Type*) where
  files : ι → File β
  entry : ν → Option ι
  onDisk : ν → Option ι

namespace Disk

variable {ν ι β : Type*}

section Reading

variable [Zero β] (d : Disk ν ι β)

/-- What a program reads under a name. -/
def read (name : ν) : Option (List β) := (d.entry name).map fun i => (d.files i).content

/-- What is found under a name on the next boot after a power cut. -/
def onBoot (name : ν) : Option (List β) := (d.onDisk name).map fun i => (d.files i).survives

variable {d} {name : ν} {held : Option ι}

/-- A durable entry of a file with durable data is found with its content. -/
theorem onBoot_of_held (settled : d.onDisk name = held)
    (durable : ∀ i, held = some i → (d.files i).Durable) :
    d.onBoot name = held.map fun i => (d.files i).content := by
  rw [onBoot, settled]
  cases held with
  | none => rfl
  | some i => rw [Option.map_some, Option.map_some, File.survives_of_durable (durable i rfl)]

end Reading

variable [DecidableEq ν] [DecidableEq ι] (d : Disk ν ι β)

/-- `open(name, "w")`, as the file `i`. -/
def create (name : ν) (i : ι) : Disk ν ι β :=
  { d with files := Function.update d.files i [], entry := Function.update d.entry name (some i) }

def write (i : ι) (p : Patch β) : Disk ν ι β :=
  { d with files := Function.update d.files i (d.files i ++ [(p, false)]) }

/-- `rename`, which replaces the target in one step. -/
def rename (source target : ν) : Disk ν ι β :=
  { d with
    entry := Function.update (Function.update d.entry target (d.entry source)) source none }

def unlink (name : ν) : Disk ν ι β := { d with entry := Function.update d.entry name none }

/-- The storage makes a patch of the file durable. -/
def persist (i : ι) (k : ℕ) : Disk ν ι β :=
  { d with files := Function.update d.files i ((d.files i).persist k) }

/-- The storage makes the entry of a name durable. -/
def settle (name : ν) : Disk ν ι β :=
  { d with onDisk := Function.update d.onDisk name (d.entry name) }

end Disk

end EdgeVoice.PosixStorage
