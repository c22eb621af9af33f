import EdgeVoice.NestedDict

/-! Dictionary objects in a heap. An object is an address, so two dictionaries may share what is
below them, and an assignment to an object shows wherever the object is reached from. A
reference stands for the nested dictionary that is read through it. -/

namespace EdgeVoice.DictHeap

open NestedDict

/-- A dictionary object: no key twice. -/
structure Dictionary (κ β : Type*) where
  entries : List (κ × β)
  distinct : (entries.map Prod.fst).Nodup

namespace Dictionary

variable {κ β : Type*}

def empty : Dictionary κ β := ⟨[], List.nodup_nil⟩

variable [DecidableEq κ]

def get (d : Dictionary κ β) (key : κ) : Option β := d.entries.lookup key

def setItem (d : Dictionary κ β) (key : κ) (value : β) : Dictionary κ β :=
  ⟨NestedDict.setItem key value d.entries, setItem_distinct d.distinct⟩

theorem get_setItem (d : Dictionary κ β) (key k : κ) (value : β) :
    (d.setItem key value).get k = if k = key then some value else d.get k :=
  lookup_setItem k

end Dictionary

/-- What an entry refers to: a dictionary object, or a value that is no dictionary. -/
inductive Ref (α : Type*) where
  | plain (a : α)
  | dict (address : ℕ)

abbrev Heap (κ α : Type*) := List (Dictionary κ (Ref α))

variable {κ α : Type*}

section Heap

variable {heap heap' : Heap κ α} {address : ℕ} {object : Dictionary κ (Ref α)}

theorem address_lt (found : heap[address]? = some object) : address < heap.length := by
  rw [List.getElem?_eq_some_iff] at found
  exact found.1

theorem found_grown (found : heap[address]? = some object) (grows : heap <+: heap') :
    heap'[address]? = some object := by
  obtain ⟨fresh, rfl⟩ := grows
  rwa [List.getElem?_append_left (address_lt found)]

variable [DecidableEq κ]

/-- Assigns to a key of the object at the address. -/
def assign (heap : Heap κ α) (address : ℕ) (key : κ) (value : Ref α) : Heap κ α :=
  heap.modify address fun object => object.setItem key value

theorem assign_self (key : κ) (value : Ref α) (found : heap[address]? = some object) :
    (assign heap address key value)[address]? = some (object.setItem key value) := by
  rw [assign, List.getElem?_modify_eq, found]
  rfl

theorem assign_other (key : κ) (value : Ref α) {other : ℕ} (h : other ≠ address) :
    (assign heap address key value)[other]? = heap[other]? := by
  rw [assign, List.getElem?_modify]
  simp [h.symm]

/-- An assignment to an object made later changes none of the earlier ones. -/
theorem grows_assign (key : κ) (value : Ref α) (grows : heap <+: heap')
    (later : heap.length ≤ address) : heap <+: assign heap' address key value := by
  rw [List.prefix_iff_getElem?] at grows ⊢
  intro i inside
  rw [assign_other key value (by omega)]
  exact grows i inside

end Heap

variable [DecidableEq κ]

/-- The reference stands for the value, and reading it meets only objects `within`. -/
inductive Reads (heap : Heap κ α) (within : ℕ → Prop) : Ref α → Value κ α → Prop
  | plain (a : α) : Reads heap within (.plain a) (.leaf a)
  | dict {address : ℕ} {object : Dictionary κ (Ref α)} {entries : List (κ × Value κ α)}
      (inside : within address) (found : heap[address]? = some object)
      (keys : object.entries.map Prod.fst = entries.map Prod.fst)
      (inner : ∀ k r v, object.get k = some r → entries.lookup k = some v →
        Reads heap within r v) :
      Reads heap within (.dict address) (.dict entries)

/-- The reference stands for the value, whichever objects it is read from. -/
abbrev Holds (heap : Heap κ α) (r : Ref α) (v : Value κ α) : Prop :=
  Reads heap (fun _ => True) r v

section Reading

variable {heap heap' : Heap κ α} {within within' : ℕ → Prop} {r : Ref α} {v : Value κ α}

/-- Frame rule: a heap that keeps the objects a reading meets has the same reading. -/
theorem Reads.frame (h : Reads heap within r v)
    (kept : ∀ address object, within address → heap[address]? = some object →
      within' address ∧ heap'[address]? = some object) : Reads heap' within' r v := by
  induction h with
  | plain a => exact .plain a
  | dict inside found keys inner ih =>
    obtain ⟨inside', found'⟩ := kept _ _ inside found
    exact .dict inside' found' keys ih

theorem Reads.grown (h : Reads heap within r v) (grows : heap <+: heap') :
    Reads heap' within r v := by
  apply h.frame
  intro address object inside found
  exact ⟨inside, found_grown found grows⟩

theorem Reads.of_dict {address : ℕ} (h : Reads heap within (.dict address) v) :
    ∃ entries, v = .dict entries := by
  cases h with
  | dict inside found keys inner => exact ⟨_, rfl⟩

/-- The entries of the object a dictionary is read from, in the dictionary's order. -/
theorem Reads.items {address : ℕ} {entries : List (κ × Value κ α)}
    (h : Reads heap within (.dict address) (.dict entries)) :
    ∃ object, heap[address]? = some object ∧
      List.Forall₂ (fun x y => x.1 = y.1 ∧ Reads heap within x.2 y.2) object.entries entries := by
  cases h with
  | @dict _ object _ inside found keys inner =>
    exact ⟨object, found, forall₂_of_lookup keys object.distinct inner⟩

/-- What is read from objects has no key twice. -/
theorem Reads.distinct (h : Reads heap within r v) : v.Distinct := by
  induction h with
  | plain a => exact .leaf a
  | @dict address object entries inside found keys inner ih =>
    have nodup : (entries.map Prod.fst).Nodup := keys ▸ object.distinct
    refine .dict nodup ?_
    intro entry member
    obtain ⟨r, held⟩ := (mem_keys_iff entry.1).mp (keys ▸ List.mem_map_of_mem member)
    exact ih entry.1 r entry.2 held (lookup_of_mem nodup member)

/-- Reads a reference, through at most `fuel` dictionaries inside one another. -/
def read : ℕ → Heap κ α → Ref α → Option (Value κ α)
  | _, _, .plain a => some (.leaf a)
  | 0, _, .dict _ => none
  | fuel + 1, heap, .dict address => do
    let object ← heap[address]?
    let entries ← object.entries.mapM fun entry =>
      (read fuel heap entry.2).map fun v => (entry.1, v)
    return .dict entries

theorem mapM_entries {β γ : Type*} (f : β → Option γ) {entries : List (κ × β)}
    {out : List (κ × γ)}
    (h : entries.mapM (fun entry => (f entry.2).map fun v => (entry.1, v)) = some out) :
    entries.map Prod.fst = out.map Prod.fst ∧
      ∀ k r v, entries.lookup k = some r → out.lookup k = some v → f r = some v := by
  induction entries generalizing out with
  | nil => simp_all
  | cons entry rest ih =>
    simp only [List.mapM_cons, Option.bind_eq_bind, Option.bind_eq_some_iff,
      Option.map_eq_some_iff] at h
    obtain ⟨first, ⟨v, head, rfl⟩, tail, later, whole⟩ := h
    cases whole
    obtain ⟨keys, inner⟩ := ih later
    refine ⟨by simp [keys], ?_⟩
    intro k r w at_k held
    rw [lookup_entry] at at_k held
    by_cases here : k = entry.1
    · simp_all
    · exact inner k r w (by simpa [here] using at_k) (by simpa [here] using held)

theorem holds_of_read (fuel : ℕ) (h : read fuel heap r = some v) : Holds heap r v := by
  induction fuel generalizing r v with
  | zero =>
    cases r with
    | plain a => cases h; exact .plain a
    | dict address => simp [read] at h
  | succ fuel ih =>
    cases r with
    | plain a => cases h; exact .plain a
    | dict address =>
      simp only [read, Option.bind_eq_bind, Option.bind_eq_some_iff] at h
      obtain ⟨object, found, entries, each, whole⟩ := h
      cases whole
      obtain ⟨keys, inner⟩ := mapM_entries (read fuel heap) each
      exact .dict trivial found keys fun k r v held here => ih (inner k r v held here)

end Reading

end EdgeVoice.DictHeap
