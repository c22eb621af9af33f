import EdgeVoice.DictHeap

/-! The layered settings: `_deep_merge` on dictionary objects, the loop over the layers, and the
config files it starts from. The merge copies one dictionary at every step down and shares the
rest with its arguments. Fuel stands for the depth of the recursion, which Python bounds too;
the height of the override is enough. Keys are taken up to Python's equality. -/

namespace EdgeVoice.ConfigMerge

open NestedDict NestedDict.Value DictHeap

variable {κ α : Type*} [DecidableEq κ]

/-- The loop body of `_deep_merge`, for one item of the override. -/
def mergeItem (recurse : Heap κ α → ℕ → ℕ → Option (Heap κ α × ℕ)) (result : ℕ)
    (heap : Heap κ α) (item : κ × Ref α) : Option (Heap κ α) := do
  let object ← heap[result]?
  match object.get item.1, item.2 with
  | some (.dict old), .dict value => do
    let (heap, merged) ← recurse heap old value
    return assign heap result item.1 (.dict merged)
  | _, value => return assign heap result item.1 value

/-- `_deep_merge`: copies the base's top dictionary, then assigns to the copy only. -/
def deepMerge : ℕ → Heap κ α → ℕ → ℕ → Option (Heap κ α × ℕ)
  | 0, _, _, _ => none
  | fuel + 1, heap, base, override => do
    let source ← heap[base]?
    let items ← heap[override]?
    let merged ← items.entries.foldlM (mergeItem (deepMerge fuel) heap.length) (heap ++ [source])
    return (merged, heap.length)

/-- One turn of the second loop of `_load_config_files`. -/
def mergeConfig (fuel : ℕ) (state : Heap κ α × ℕ) : Ref α → Option (Heap κ α × ℕ)
  | .dict cfg => deepMerge fuel state.1 state.2 cfg
  | .plain _ => none  -- `override.items()` raises

def mergeLayers (fuel : ℕ) (heap : Heap κ α) (configs : List (Ref α)) :
    Option (Heap κ α × ℕ) :=
  configs.foldlM (mergeConfig fuel) (heap ++ [Dictionary.empty], heap.length)

/-- `yaml.safe_load(f) or {}`, for the document a file holds. -/
def orEmpty (truthy : α → Bool) (heap : Heap κ α) : Ref α → Heap κ α × Ref α
  | .plain a =>
    if truthy a then (heap, .plain a) else (heap ++ [Dictionary.empty], .dict heap.length)
  | .dict address =>
    if heap[address]?.any fun object => object.entries.isEmpty then
      (heap ++ [Dictionary.empty], .dict heap.length)
    else (heap, .dict address)

/-- The first loop of `_load_config_files`: a path that does not exist is passed by. -/
def openConfigs (truthy : α → Bool) :
    Heap κ α → List (Option (Ref α)) → Heap κ α × List (Ref α)
  | heap, [] => (heap, [])
  | heap, none :: documents => openConfigs truthy heap documents
  | heap, some document :: documents =>
    let cfg := orEmpty truthy heap document
    let configs := openConfigs truthy cfg.1 documents
    (configs.1, cfg.2 :: configs.2)

def configPaths : List String := ["configs/default.yaml", "configs/local.yaml"]

/-- `_load_config_files`, on what each path holds; the later file overrides the earlier. -/
def loadConfigFiles (truthy : α → Bool) (fuel : ℕ) (heap : Heap κ α)
    (files : String → Option (Ref α)) : Option (Heap κ α × ℕ) :=
  let configs := openConfigs truthy heap (configPaths.map files)
  mergeLayers fuel configs.1 configs.2

/-- The objects a call may read besides the copy it makes, which comes next in the heap. -/
def Beside (heap : Heap κ α) (within : ℕ → Prop) (i : ℕ) : Prop :=
  i ≠ heap.length ∧ (within i ∨ heap.length < i)

/-- Inside one call: the old objects are as they were, and the copy holds `entries`, none of
which leads back to the copy. -/
structure Copying (heap now : Heap κ α) (within : ℕ → Prop) (copy : Dictionary κ (Ref α))
    (entries : List (κ × Value κ α)) : Prop where
  grows : heap <+: now
  found : now[heap.length]? = some copy
  keys : copy.entries.map Prod.fst = entries.map Prod.fst
  inner : ∀ k r v, copy.get k = some r → entries.lookup k = some v →
    Reads now (Beside heap within) r v

namespace Copying

variable {heap now later : Heap κ α} {within : ℕ → Prop} {copy : Dictionary κ (Ref α)}
  {entries : List (κ × Value κ α)}

/-- What was readable before the copy was made is read without it. -/
theorem reads_old {r : Ref α} {v : Value κ α} (h : Reads heap within r v) (grows : heap <+: now) :
    Reads now (Beside heap within) r v := by
  apply h.frame
  intro address object inside found
  have old := address_lt found
  exact ⟨⟨by omega, .inl inside⟩, found_grown found grows⟩

theorem start {base : ℕ} {source : Dictionary κ (Ref α)} (held : heap[base]? = some source)
    (h : Reads heap within (.dict base) (.dict entries)) :
    Copying heap (heap ++ [source]) within source entries := by
  cases h with
  | dict inside found keys inner =>
    cases held.symm.trans found
    have grows : heap <+: heap ++ [source] := List.prefix_append heap [source]
    refine ⟨grows, by simp, keys, ?_⟩
    intro k r v at_k here
    exact reads_old (inner k r v at_k here) grows

/-- Assigning to the copy something that does not lead back to it. -/
theorem assigned (h : Copying heap now within copy entries) (key : κ) {r : Ref α}
    {v : Value κ α} (grows : now <+: later)
    (reads : Reads later (Beside heap within) r v) :
    Copying heap (assign later heap.length key r) within (copy.setItem key r)
      (setItem key v entries) where
  grows := grows_assign key r (h.grows.trans grows) (Nat.le_refl _)
  found := assign_self key r (found_grown h.found grows)
  keys := by rw [Dictionary.setItem, keys_setItem, keys_setItem, h.keys]
  inner := by
    have aside : ∀ s w, Reads later (Beside heap within) s w →
        Reads (assign later heap.length key r) (Beside heap within) s w := by
      intro s w here
      apply here.frame
      intro address object inside found
      exact ⟨inside, by rwa [assign_other key r inside.1]⟩
    intro k s w at_k here
    rw [Dictionary.get_setItem] at at_k
    rw [lookup_setItem] at here
    by_cases same : k = key
    · rw [if_pos same] at at_k here
      cases at_k
      cases here
      exact aside r v reads
    · rw [if_neg same] at at_k here
      exact aside s w ((h.inner k s w at_k here).grown grows)

theorem result (h : Copying heap now within copy entries) :
    Reads now (fun i => within i ∨ heap.length ≤ i) (.dict heap.length) (.dict entries) := by
  refine .dict (.inr (Nat.le_refl _)) h.found h.keys ?_
  intro k r v at_k here
  apply (h.inner k r v at_k here).frame
  intro address object inside found
  exact ⟨inside.2.imp_right Nat.le_of_lt, found⟩

end Copying

/-- Calls on overrides of a height below the bound return the merge as a new object, and
change no object there was. -/
def MergesBelow (bound : ℕ) (call : Heap κ α → ℕ → ℕ → Option (Heap κ α × ℕ)) : Prop :=
  ∀ heap within base override entries items, heightOf items < bound →
    Reads heap within (.dict base) (.dict entries) →
    Reads heap within (.dict override) (.dict items) →
    ∃ heap' result, call heap base override = some (heap', result) ∧ heap <+: heap' ∧
      Reads heap' (fun i => within i ∨ heap.length ≤ i) (.dict result)
        (.dict (mergeItems entries items))

section Item

variable {bound : ℕ} {call : Heap κ α → ℕ → ℕ → Option (Heap κ α × ℕ)} {heap now : Heap κ α}
  {within : ℕ → Prop} {copy : Dictionary κ (Ref α)} {entries : List (κ × Value κ α)}

theorem mergeItem_recurses {result old value : ℕ} {key : κ} (found : now[result]? = some copy)
    (held : copy.get key = some (.dict old)) :
    mergeItem call result now (key, .dict value) =
      (call now old value).map fun out => assign out.1 result key (.dict out.2) := by
  simp only [mergeItem, found, Option.bind_eq_bind, Option.bind_some, held]
  cases call now old value <;> rfl

theorem mergeItem_replaces {result : ℕ} {key : κ} {r : Ref α} (found : now[result]? = some copy)
    (single : ¬∃ old value, copy.get key = some (.dict old) ∧ r = .dict value) :
    mergeItem call result now (key, r) = some (assign now result key r) := by
  simp only [mergeItem, found, Option.bind_eq_bind, Option.bind_some]
  split
  · next held => exact absurd ⟨_, _, held, rfl⟩ single
  · rfl

theorem mergeItem_copying {r : Ref α} {v : Value κ α} (calls : MergesBelow bound call)
    (h : Copying heap now within copy entries) (key : κ) (reads : Reads heap within r v)
    (low : v.height ≤ bound) :
    ∃ now' copy', mergeItem call heap.length now (key, r) = some now' ∧
      Copying heap now' within copy' (setItem key (mergeInto (entries.lookup key) v) entries) := by
  have readable := Copying.reads_old reads h.grows
  by_cases both : ∃ old value, copy.get key = some (.dict old) ∧ r = .dict value
  · obtain ⟨old, value, held, rfl⟩ := both
    obtain ⟨w, here⟩ := exists_lookup h.keys held
    have below := h.inner key (.dict old) w held here
    obtain ⟨outer, rfl⟩ := below.of_dict
    obtain ⟨items, rfl⟩ := reads.of_dict
    obtain ⟨later, merged, returns, grows, result⟩ :=
      calls now _ old value outer items low below readable
    -- The call allocates behind the copy, so what it returns does not lead back to the copy.
    have fresh : Reads later (Beside heap within) (.dict merged)
        (.dict (mergeItems outer items)) := by
      apply result.frame
      intro i object inside found
      have copied := address_lt h.found
      exact ⟨inside.elim id fun new => ⟨by omega, .inr (by omega)⟩, found⟩
    rw [here, mergeInto]
    refine ⟨_, _, ?_, h.assigned key grows fresh⟩
    rw [mergeItem_recurses h.found held, returns]
    rfl
  · have single : ∀ outer items, entries.lookup key = some (.dict outer) → v ≠ .dict items := by
      rintro outer items here rfl
      obtain ⟨s, held⟩ := exists_lookup h.keys.symm here
      cases h.inner key s _ held here with
      | dict =>
        cases reads with
        | dict => exact both ⟨_, _, held, rfl⟩
    rw [mergeInto_of_not_both single]
    exact ⟨_, _, mergeItem_replaces h.found both, h.assigned key List.prefix_rfl readable⟩

end Item

theorem mergeItems_copying {bound : ℕ} {call : Heap κ α → ℕ → ℕ → Option (Heap κ α × ℕ)}
    {heap now : Heap κ α} {within : ℕ → Prop} {copy : Dictionary κ (Ref α)}
    {entries items : List (κ × Value κ α)} {refs : List (κ × Ref α)}
    (calls : MergesBelow bound call) (h : Copying heap now within copy entries)
    (same : List.Forall₂ (fun x y => x.1 = y.1 ∧ Reads heap within x.2 y.2) refs items)
    (low : heightOf items ≤ bound) :
    ∃ now' copy', refs.foldlM (mergeItem call heap.length) now = some now' ∧
      Copying heap now' within copy' (mergeItems entries items) := by
  induction same generalizing now copy entries with
  | nil => exact ⟨now, copy, rfl, h⟩
  | @cons item entry refs items first rest ih =>
    obtain ⟨key, r⟩ := item
    obtain ⟨rfl, reads⟩ := first
    rw [heightOf] at low
    obtain ⟨next, copy', one, h⟩ := mergeItem_copying calls h entry.1 reads (by omega)
    obtain ⟨now', copy'', more, h⟩ := ih h (by omega)
    refine ⟨now', copy'', ?_, h⟩
    simp only [List.foldlM_cons, one]
    exact more

/-- Enough fuel for the nesting of the override is enough for the call. -/
theorem deepMerge_mergesBelow (fuel : ℕ) :
    MergesBelow fuel (@deepMerge κ α _ fuel) := by
  induction fuel with
  | zero =>
    intro heap within base override entries items low
    omega
  | succ fuel ih =>
    intro heap within base override entries items low base_reads override_reads
    obtain ⟨source, held, _⟩ := base_reads.items
    obtain ⟨given, found, same⟩ := override_reads.items
    obtain ⟨now, copy, loop, h⟩ :=
      mergeItems_copying ih (Copying.start held base_reads) same (by omega)
    refine ⟨now, heap.length, ?_, h.grows, h.result⟩
    simp [deepMerge, held, found, loop]

theorem deepMerge_returns {heap : Heap κ α} {base override fuel : ℕ} {b o : Value κ α}
    (base_holds : Holds heap (.dict base) b) (override_holds : Holds heap (.dict override) o)
    (enough : o.height ≤ fuel) :
    ∃ heap' result, deepMerge fuel heap base override = some (heap', result) ∧
      heap <+: heap' ∧ Holds heap' (.dict result) (mergeInto (some b) o) := by
  obtain ⟨entries, rfl⟩ := base_holds.of_dict
  obtain ⟨items, rfl⟩ := override_holds.of_dict
  rw [height] at enough
  obtain ⟨heap', result, returns, grows, reads⟩ := deepMerge_mergesBelow fuel heap _
    base override entries items enough base_holds override_holds
  refine ⟨heap', result, returns, grows, ?_⟩
  rw [mergeInto]
  apply reads.frame
  intro i object _ found
  exact ⟨trivial, found⟩

/-- A default file with a section and a plain value, and a local file that sets a key of the
section and puts a section over the plain value. -/
def twoFiles : Heap String ℕ :=
  [⟨[("enabled", .plain 0), ("segment_secs", .plain 10)], by decide⟩,
    ⟨[("dump", .dict 0), ("queues", .plain 256)], by decide⟩,
    ⟨[("enabled", .plain 1)], by decide⟩,
    ⟨[("ingest", .plain 64)], by decide⟩,
    ⟨[("dump", .dict 2), ("queues", .dict 3)], by decide⟩]

example : ((deepMerge 2 twoFiles 1 4).bind fun state => read 2 state.1 (.dict state.2)) =
    some (.dict [("dump", .dict [("enabled", .leaf 1), ("segment_secs", .leaf 10)]),
      ("queues", .dict [("ingest", .leaf 64)])]) := rfl

theorem blank_holds (heap : Heap κ α) :
    Holds (heap ++ [Dictionary.empty]) (.dict heap.length) (.dict []) :=
  .dict trivial List.getElem?_concat_length rfl (by simp)

/-- The layers are dictionaries, nested no deeper than the fuel allows. -/
def Layered (fuel : ℕ) (layers : List (Value κ α)) : Prop :=
  ∀ layer ∈ layers, layer.isDict = true ∧ layer.height ≤ fuel

/-- The merges of a whole run, each on the heap the one before left. -/
theorem mergeLayers_loop {fuel : ℕ} {heap now : Heap κ α} {configs : List (Ref α)} {merged : ℕ}
    {layers : List (Value κ α)} {m : Value κ α}
    (holds : List.Forall₂ (Holds heap) configs layers) (layered : Layered fuel layers)
    (grows : heap <+: now) (merged_holds : Holds now (.dict merged) m) :
    ∃ heap' result, configs.foldlM (mergeConfig fuel) (now, merged) = some (heap', result) ∧
      heap <+: heap' ∧ Holds heap' (.dict result)
        (layers.foldl (fun merged layer => mergeInto (some merged) layer) m) := by
  induction holds generalizing now merged m with
  | nil => exact ⟨now, merged, rfl, grows, merged_holds⟩
  | @cons cfg layer configs layers first rest ih =>
    rw [Layered, List.forall_mem_cons] at layered
    cases cfg with
    | plain a =>
      cases first
      simp [isDict] at layered
    | dict address =>
      obtain ⟨next, middle, one, further, here⟩ :=
        deepMerge_returns merged_holds (first.grown grows) layered.1.2
      obtain ⟨heap', result, more, whole, last⟩ := ih layered.2 (grows.trans further) here
      refine ⟨heap', result, ?_, whole, last⟩
      simp only [List.foldlM_cons, mergeConfig, one]
      exact more

theorem mergeLayers_returns {fuel : ℕ} {heap : Heap κ α} {configs : List (Ref α)}
    {layers : List (Value κ α)} (holds : List.Forall₂ (Holds heap) configs layers)
    (layered : Layered fuel layers) :
    ∃ heap' result, mergeLayers fuel heap configs = some (heap', result) ∧ heap <+: heap' ∧
      Holds heap' (.dict result) (mergeAll layers) := by
  have grows : heap <+: heap ++ [Dictionary.empty] := List.prefix_append heap _
  exact mergeLayers_loop holds layered grows (blank_holds heap)

/-- A layer that is no dictionary has no items to loop over. -/
theorem mergeLayers_raises {fuel : ℕ} {heap : Heap κ α} {configs : List (Ref α)}
    {layers : List (Value κ α)} (holds : List.Forall₂ (Holds heap) configs layers) {a : α}
    (odd : .leaf a ∈ layers) (state : Heap κ α × ℕ) :
    configs.foldlM (mergeConfig fuel) state = none := by
  induction holds generalizing state with
  | nil => simp at odd
  | @cons cfg layer configs layers first rest ih =>
    rw [List.foldlM_cons]
    cases List.mem_cons.mp odd with
    | inl here =>
      subst here
      cases first
      rfl
    | inr later =>
      cases mergeConfig fuel state cfg with
      | none => rfl
      | some next => exact ih later next

theorem layers_distinct {heap : Heap κ α} {configs : List (Ref α)} {layers : List (Value κ α)}
    (holds : List.Forall₂ (Holds heap) configs layers) : ∀ layer ∈ layers, layer.Distinct := by
  induction holds with
  | nil => simp
  | cons first rest ih => exact List.forall_mem_cons.mpr ⟨first.distinct, ih⟩

/-- What a document counts as. -/
def layerOf (truthy : α → Bool) : Value κ α → Value κ α
  | .leaf a => if truthy a then .leaf a else .dict []
  | .dict entries => .dict entries

theorem orEmpty_holds (truthy : α → Bool) {heap : Heap κ α} {document : Ref α} {tree : Value κ α}
    (h : Holds heap document tree) :
    heap <+: (orEmpty truthy heap document).1 ∧
      Holds (orEmpty truthy heap document).1 (orEmpty truthy heap document).2
        (layerOf truthy tree) := by
  have appended : heap <+: heap ++ [Dictionary.empty] := List.prefix_append heap _
  cases h with
  | plain a =>
    rw [orEmpty, layerOf]
    split
    · exact ⟨List.prefix_rfl, .plain a⟩
    · exact ⟨appended, blank_holds heap⟩
  | @dict address object entries inside found keys inner =>
    rw [orEmpty, layerOf, found]
    split
    · next nothing =>
      have none_there : entries = [] := by
        apply List.map_eq_nil_iff.mp
        rw [← keys]
        simp_all
      rw [none_there]
      exact ⟨appended, blank_holds heap⟩
    · exact ⟨List.prefix_rfl, .dict inside found keys inner⟩

theorem openConfigs_holds (truthy : α → Bool) {heap : Heap κ α}
    {documents : List (Option (Ref α))} {trees : List (Value κ α)}
    (holds : List.Forall₂ (Holds heap) documents.reduceOption trees) :
    heap <+: (openConfigs truthy heap documents).1 ∧
      List.Forall₂ (Holds (openConfigs truthy heap documents).1)
        (openConfigs truthy heap documents).2 (trees.map (layerOf truthy)) := by
  induction documents generalizing heap trees with
  | nil =>
    cases holds
    exact ⟨List.prefix_rfl, .nil⟩
  | cons document documents ih =>
    cases document with
    | none => exact ih holds
    | some r =>
      cases holds with
      | cons first rest =>
        obtain ⟨grows, here⟩ := orEmpty_holds truthy first
        obtain ⟨further, later⟩ := ih (rest.imp fun _ _ h => h.grown grows)
        exact ⟨grows.trans further, .cons (here.grown further) later⟩

/-- The settings are the merge of the documents that are there, a falsy one standing for `{}`. -/
theorem loadConfigFiles_returns (truthy : α → Bool) {fuel : ℕ} {heap : Heap κ α}
    {files : String → Option (Ref α)} {trees : List (Value κ α)}
    (holds : List.Forall₂ (Holds heap) (configPaths.map files).reduceOption trees)
    (layered : Layered fuel (trees.map (layerOf truthy))) :
    ∃ heap' result, loadConfigFiles truthy fuel heap files = some (heap', result) ∧
      heap <+: heap' ∧ Holds heap' (.dict result) (mergeAll (trees.map (layerOf truthy))) := by
  obtain ⟨opened, layers⟩ := openConfigs_holds truthy holds
  obtain ⟨heap', result, returns, grows, reads⟩ := mergeLayers_returns layers layered
  exact ⟨heap', result, returns, opened.trans grows, reads⟩

/-- Only a document that is neither falsy nor a dictionary stops the loading. -/
theorem loadConfigFiles_isSome_iff (truthy : α → Bool) {fuel : ℕ} {heap : Heap κ α}
    {files : String → Option (Ref α)} {trees : List (Value κ α)}
    (holds : List.Forall₂ (Holds heap) (configPaths.map files).reduceOption trees)
    (enough : ∀ layer ∈ trees.map (layerOf truthy), layer.height ≤ fuel) :
    (loadConfigFiles truthy fuel heap files).isSome ↔ ∀ a, .leaf a ∈ trees → ¬truthy a := by
  constructor
  · intro returned a odd truth
    have layer : .leaf a ∈ trees.map (layerOf truthy) :=
      List.mem_map.mpr ⟨.leaf a, odd, by simp [layerOf, truth]⟩
    have raised : loadConfigFiles truthy fuel heap files = none :=
      mergeLayers_raises (openConfigs_holds truthy holds).2 layer _
    simp [raised] at returned
  · intro falsy
    have layered : Layered fuel (trees.map (layerOf truthy)) := by
      intro layer member
      refine ⟨?_, enough layer member⟩
      obtain ⟨tree, there, rfl⟩ := List.mem_map.mp member
      cases tree with
      | leaf a => simp [layerOf, falsy a there, isDict]
      | dict entries => rfl
    obtain ⟨heap', result, returns, _⟩ := loadConfigFiles_returns truthy holds layered
    simp [returns]

/-- A merge of two dictionaries follows the three laws of an overlay, and a merge of layers
gives every leaf the value of the last layer that determines its path. No object there was is
changed. -/
theorem config_merge (heap : Heap κ α) :
    (∀ (base override fuel : ℕ) (b o : Value κ α), Holds heap (.dict base) b →
      Holds heap (.dict override) o → o.height ≤ fuel →
      ∃ heap' result merged, deepMerge fuel heap base override = some (heap', result) ∧
        Holds heap' (.dict result) merged ∧ Overlays b o merged ∧
        heap <+: heap' ∧ Holds heap' (.dict base) b ∧ Holds heap' (.dict override) o) ∧
    ∀ (configs : List (Ref α)) (fuel : ℕ) (layers : List (Value κ α)),
      List.Forall₂ (Holds heap) configs layers → Layered fuel layers →
      ∃ heap' result merged, mergeLayers fuel heap configs = some (heap', result) ∧
        Holds heap' (.dict result) merged ∧
        (∀ path a, merged.valueAt path = some (.leaf a) ↔ LastSets layers path a) ∧
        heap <+: heap' ∧ List.Forall₂ (Holds heap') configs layers := by
  constructor
  · intro base override fuel b o base_holds override_holds enough
    obtain ⟨heap', result, returns, grows, reads⟩ :=
      deepMerge_returns base_holds override_holds enough
    exact ⟨heap', result, mergeInto (some b) o, returns, reads,
      merge_overlays override_holds.distinct b, grows, base_holds.grown grows,
      override_holds.grown grows⟩
  · intro configs fuel layers holds layered
    obtain ⟨heap', result, returns, grows, reads⟩ := mergeLayers_returns holds layered
    exact ⟨heap', result, mergeAll layers, returns, reads,
      mergeAll_leaf_iff layers (layers_distinct holds), grows,
      holds.imp fun cfg layer h => h.grown grows⟩

def defaultConfig : Value String ℕ :=
  .dict [("dump", .dict [("enabled", .leaf 0), ("segment_secs", .leaf 10)]), ("queues", .leaf 256)]

def localConfig : Value String ℕ :=
  .dict [("dump", .dict [("enabled", .leaf 1)]), ("queues", .dict [("ingest", .leaf 64)])]

theorem config_merge_two_files :
    (∃ heap' result merged, deepMerge 2 twoFiles 1 4 = some (heap', result) ∧
      Holds heap' (.dict result) merged ∧ Overlays defaultConfig localConfig merged ∧
      twoFiles <+: heap' ∧ Holds heap' (.dict 1) defaultConfig ∧
      Holds heap' (.dict 4) localConfig) ∧
    ∃ heap' result merged, mergeLayers 2 twoFiles [.dict 1, .dict 4] = some (heap', result) ∧
      Holds heap' (.dict result) merged ∧
      (∀ path a, merged.valueAt path = some (.leaf a) ↔
        LastSets [defaultConfig, localConfig] path a) ∧
      twoFiles <+: heap' ∧
      List.Forall₂ (Holds heap') [.dict 1, .dict 4] [defaultConfig, localConfig] :=
  have bottom : Holds twoFiles (.dict 1) defaultConfig := holds_of_read 2 rfl
  have top : Holds twoFiles (.dict 4) localConfig := holds_of_read 2 rfl
  ⟨(config_merge twoFiles).1 1 4 2 defaultConfig localConfig bottom top (by decide),
    (config_merge twoFiles).2 [.dict 1, .dict 4] 2 [defaultConfig, localConfig]
      (.cons bottom (.cons top .nil))
      (by simp [Layered, defaultConfig, localConfig, isDict, height, heightOf])⟩

end EdgeVoice.ConfigMerge
