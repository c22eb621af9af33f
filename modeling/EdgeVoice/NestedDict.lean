import Mathlib.Data.List.Induction
import Mathlib.Data.List.Nodup

/-! Dictionaries that keep their entries in insertion order, nested to any depth, and the
values under paths of keys. Laying one nested dictionary over another merges dictionary with
dictionary and replaces everything else. -/

namespace EdgeVoice.NestedDict

/-- Assigns to a key: in place if it is present, behind the other entries if it is new. -/
def setItem {κ β : Type*} [DecidableEq κ] (key : κ) (value : β) : List (κ × β) → List (κ × β)
  | [] => [(key, value)]
  | (k, v) :: rest => if k = key then (k, value) :: rest else (k, v) :: setItem key value rest

section Entries

variable {κ β : Type*} [DecidableEq κ] {entries : List (κ × β)} {key : κ} {value : β}

theorem lookup_entry (k : κ) (entry : κ × β) :
    (entry :: entries).lookup k = if k = entry.1 then some entry.2 else entries.lookup k := by
  rw [List.lookup_cons]
  split <;> simp_all

theorem lookup_setItem (k : κ) :
    (setItem key value entries).lookup k = if k = key then some value else entries.lookup k := by
  induction entries with
  | nil => rw [setItem, lookup_entry]
  | cons entry rest ih =>
    rw [setItem]
    by_cases same : entry.1 = key
    · by_cases asked : k = key <;> simp [lookup_entry, same, asked]
    · by_cases here : k = entry.1
      · simp [lookup_entry, here, same]
      · simp [lookup_entry, here, same, ih]

theorem mem_keys_iff (k : κ) : k ∈ entries.map Prod.fst ↔ ∃ v, entries.lookup k = some v := by
  rw [← Option.isSome_iff_exists, List.lookup_isSome_iff]
  simp

theorem exists_lookup {γ : Type*} {others : List (κ × γ)} {v : γ}
    (keys : others.map Prod.fst = entries.map Prod.fst) (found : others.lookup key = some v) :
    ∃ w, entries.lookup key = some w := by
  rw [← mem_keys_iff, ← keys, mem_keys_iff]
  exact ⟨v, found⟩

theorem mem_of_lookup (found : entries.lookup key = some value) : (key, value) ∈ entries := by
  obtain ⟨before, after, split, _⟩ := List.lookup_eq_some_iff.mp found
  rw [split]
  exact List.mem_append_cons_self

theorem lookup_of_mem (distinct : (entries.map Prod.fst).Nodup)
    (member : (key, value) ∈ entries) : entries.lookup key = some value := by
  obtain ⟨before, after, rfl⟩ := List.append_of_mem member
  refine List.lookup_eq_some_iff.mpr ⟨before, after, rfl, ?_⟩
  intro entry earlier
  rw [List.map_append, List.nodup_append] at distinct
  exact bne_iff_ne.mpr (distinct.2.2 _ (List.mem_map_of_mem earlier) key (by simp)).symm

/-- Entries under the same distinct keys stand in the same places. -/
theorem forall₂_of_lookup {γ : Type*} {others : List (κ × γ)} {R : β → γ → Prop}
    (keys : entries.map Prod.fst = others.map Prod.fst)
    (distinct : (entries.map Prod.fst).Nodup)
    (related : ∀ k r v, entries.lookup k = some r → others.lookup k = some v → R r v) :
    List.Forall₂ (fun x y => x.1 = y.1 ∧ R x.2 y.2) entries others := by
  induction entries generalizing others with
  | nil =>
    rw [List.map_eq_nil_iff.mp keys.symm]
    exact .nil
  | cons entry rest ih =>
    cases others with
    | nil => simp at keys
    | cons other others =>
      rw [List.map_cons, List.map_cons, List.cons.injEq] at keys
      rw [List.map_cons, List.nodup_cons] at distinct
      refine .cons ⟨keys.1, related entry.1 _ _ ?_ ?_⟩ (ih keys.2 distinct.2 ?_)
      · rw [lookup_entry, if_pos rfl]
      · rw [lookup_entry, if_pos keys.1]
      · intro k r v found held
        have later : k ≠ entry.1 := by
          intro same
          exact distinct.1 (same ▸ (mem_keys_iff k).mpr ⟨r, found⟩)
        apply related k
        · rw [lookup_entry, if_neg later, found]
        · rw [lookup_entry, ← keys.1, if_neg later, held]

theorem keys_setItem : (setItem key value entries).map Prod.fst =
    if key ∈ entries.map Prod.fst then entries.map Prod.fst
    else entries.map Prod.fst ++ [key] := by
  induction entries with
  | nil => simp [setItem]
  | cons entry rest ih =>
    rw [setItem]
    by_cases same : entry.1 = key
    · simp [same]
    · have other : key ≠ entry.1 := fun h => same h.symm
      rw [if_neg same, List.map_cons, ih]
      simp only [List.map_cons, List.mem_cons, other, false_or]
      split <;> rfl

theorem setItem_distinct (distinct : (entries.map Prod.fst).Nodup) :
    ((setItem key value entries).map Prod.fst).Nodup := by
  rw [keys_setItem]
  split
  · exact distinct
  · next new => exact List.nodup_append.mpr ⟨distinct, List.nodup_singleton key, by grind⟩

end Entries

/-- A nested dictionary; a leaf is any value that is not a dictionary. -/
inductive Value (κ α : Type*) where
  | leaf (a : α)
  | dict (entries : List (κ × Value κ α))

namespace Value

variable {κ α : Type*}

def isDict : Value κ α → Bool
  | .leaf _ => false
  | .dict _ => true

mutual

/-- How deep dictionaries are nested in a value. -/
def height : Value κ α → ℕ
  | .leaf _ => 0
  | .dict entries => heightOf entries + 1

def heightOf : List (κ × Value κ α) → ℕ
  | [] => 0
  | (_, v) :: rest => max v.height (heightOf rest)

end

/-- No dictionary inside the value has a key twice. -/
inductive Distinct : Value κ α → Prop
  | leaf (a : α) : Distinct (.leaf a)
  | dict {entries : List (κ × Value κ α)} (keys : (entries.map Prod.fst).Nodup)
      (inner : ∀ entry ∈ entries, Distinct entry.2) : Distinct (.dict entries)

variable [DecidableEq κ]

/-- The value under a path, if each key on the way is in the dictionary it is looked up in. -/
def valueAt : Value κ α → List κ → Option (Value κ α)
  | v, [] => some v
  | .leaf _, _ :: _ => none
  | .dict entries, k :: path => (entries.lookup k).bind fun v => valueAt v path

mutual

/-- Lays a value over what is there: two dictionaries merge, anything else is replaced. -/
def mergeInto (base : Option (Value κ α)) : Value κ α → Value κ α
  | .leaf a => .leaf a
  | .dict items =>
    match base with
    | some (.dict entries) => .dict (mergeItems entries items)
    | _ => .dict items

def mergeItems (entries : List (κ × Value κ α)) : List (κ × Value κ α) → List (κ × Value κ α)
  | [] => entries
  | (k, v) :: items => mergeItems (setItem k (mergeInto (entries.lookup k) v) entries) items

end

theorem lookup_mergeItems {entries items : List (κ × Value κ α)}
    (distinct : (items.map Prod.fst).Nodup) (k : κ) :
    (mergeItems entries items).lookup k =
      match items.lookup k with
      | none => entries.lookup k
      | some v => some (mergeInto (entries.lookup k) v) := by
  induction items generalizing entries with
  | nil => rw [mergeItems]; rfl
  | cons item items ih =>
    rw [List.map_cons, List.nodup_cons] at distinct
    rw [mergeItems, ih distinct.2, lookup_setItem, lookup_entry]
    by_cases here : k = item.1
    · have absent : items.lookup k = none := by
        rw [Option.eq_none_iff_forall_ne_some]
        intro v found
        exact distinct.1 (here ▸ (mem_keys_iff k).mpr ⟨v, found⟩)
      rw [absent, if_pos here, if_pos here, here]
    · rw [if_neg here, if_neg here]

theorem mem_keys_mergeItems {entries items : List (κ × Value κ α)}
    (distinct : (items.map Prod.fst).Nodup) (k : κ) :
    k ∈ (mergeItems entries items).map Prod.fst ↔
      k ∈ entries.map Prod.fst ∨ k ∈ items.map Prod.fst := by
  simp only [mem_keys_iff, lookup_mergeItems distinct]
  cases items.lookup k <;> simp

/-- Only two dictionaries merge. -/
theorem mergeInto_of_not_both {base : Option (Value κ α)} {override : Value κ α}
    (h : ∀ entries items, base = some (.dict entries) → override ≠ .dict items) :
    mergeInto base override = override := by
  cases override with
  | leaf a => rw [mergeInto]
  | dict items =>
    rw [mergeInto]
    intro entries is_base
    exact h entries items is_base rfl

theorem valueAt_merge {entries items : List (κ × Value κ α)}
    (distinct : (items.map Prod.fst).Nodup) (k : κ) (path : List κ) :
    valueAt (.dict (mergeItems entries items)) (k :: path) =
      match items.lookup k with
      | none => valueAt (.dict entries) (k :: path)
      | some v => valueAt (mergeInto (entries.lookup k) v) path := by
  rw [valueAt, lookup_mergeItems distinct]
  cases items.lookup k <;> rfl

/-- The three laws of an overlay, under every path: what the override sets wins, dictionaries
on both sides have their keys united, and what the override leaves alone stays. -/
structure Overlays (base override result : Value κ α) : Prop where
  wins : ∀ path v, override.valueAt path = some v →
    (v.isDict = false ∨ ∀ b, base.valueAt path = some b → b.isDict = false) →
    result.valueAt path = some v
  unites : ∀ path entries items, base.valueAt path = some (.dict entries) →
    override.valueAt path = some (.dict items) →
    ∃ merged, result.valueAt path = some (.dict merged) ∧
      ∀ k, k ∈ merged.map Prod.fst ↔ k ∈ entries.map Prod.fst ∨ k ∈ items.map Prod.fst
  keeps : ∀ path, override.valueAt path = none →
    (∀ above a, above <+: path → above ≠ path → override.valueAt above ≠ some (.leaf a)) →
    result.valueAt path = base.valueAt path

section Laws

variable {override : Value κ α} (distinct : override.Distinct)
include distinct

theorem merge_wins (base : Option (Value κ α)) (path : List κ) (v : Value κ α)
    (set : override.valueAt path = some v)
    (free : v.isDict = false ∨
      ∀ b, (base.bind fun b => b.valueAt path) = some b → b.isDict = false) :
    (mergeInto base override).valueAt path = some v := by
  induction path generalizing base override with
  | nil =>
    cases set
    rw [mergeInto_of_not_both, valueAt]
    rintro entries items rfl rfl
    simp [isDict, valueAt] at free
  | cons k path ih =>
    cases distinct with
    | leaf a => simp [valueAt] at set
    | @dict items keys inner =>
      -- Under the key the base may have nothing, so the law is about an optional base.
      by_cases both : ∃ entries, base = some (.dict entries)
      · obtain ⟨entries, rfl⟩ := both
        obtain ⟨w, found, below⟩ := Option.bind_eq_some_iff.mp set
        rw [mergeInto, valueAt_merge keys, found]
        apply ih (inner _ (mem_of_lookup found)) _ below
        simpa [valueAt] using free
      · rw [mergeInto_of_not_both, set]
        intro entries _ is_base
        exact absurd ⟨entries, is_base⟩ both

theorem merge_unites (base : Option (Value κ α)) (path : List κ)
    (entries items : List (κ × Value κ α))
    (below : (base.bind fun b => b.valueAt path) = some (.dict entries))
    (set : override.valueAt path = some (.dict items)) :
    ∃ merged, (mergeInto base override).valueAt path = some (.dict merged) ∧
      ∀ k, k ∈ merged.map Prod.fst ↔ k ∈ entries.map Prod.fst ∨ k ∈ items.map Prod.fst := by
  obtain ⟨b, rfl, under⟩ := Option.bind_eq_some_iff.mp below
  clear below
  induction path generalizing b override with
  | nil =>
    cases under
    cases set
    cases distinct with
    | dict keys inner =>
      exact ⟨mergeItems entries items, by rw [mergeInto, valueAt], mem_keys_mergeItems keys⟩
  | cons k path ih =>
    cases distinct with
    | leaf a => simp [valueAt] at set
    | dict keys inner =>
      cases b with
      | leaf a => simp [valueAt] at under
      | dict outer =>
        obtain ⟨w, found, set⟩ := Option.bind_eq_some_iff.mp set
        obtain ⟨c, held, under⟩ := Option.bind_eq_some_iff.mp under
        rw [mergeInto, valueAt_merge keys, found, held]
        exact ih (inner _ (mem_of_lookup found)) set c under

theorem merge_keeps (base : Option (Value κ α)) (path : List κ)
    (unset : override.valueAt path = none)
    (through : ∀ above a, above <+: path → above ≠ path →
      override.valueAt above ≠ some (.leaf a)) :
    (mergeInto base override).valueAt path = base.bind fun b => b.valueAt path := by
  induction path generalizing base override with
  | nil => simp [valueAt] at unset
  | cons k path ih =>
    cases distinct with
    | leaf a => exact absurd rfl (through [] a List.nil_prefix (by simp))
    | @dict items keys inner =>
      by_cases both : ∃ entries, base = some (.dict entries)
      · obtain ⟨entries, rfl⟩ := both
        rw [mergeInto, valueAt_merge keys]
        cases found : items.lookup k with
        | none => rfl
        | some w =>
          rw [valueAt, found] at unset
          apply ih (inner _ (mem_of_lookup found)) _ unset
          intro above a inside proper
          have open_below := through (k :: above) a ((List.prefix_cons_inj k).mpr inside)
            (by simpa)
          rwa [valueAt, found] at open_below
      -- The override replaces the base here, and neither has anything at the path.
      · rw [mergeInto_of_not_both, unset]
        · cases base with
          | none => rfl
          | some b =>
            cases b with
            | leaf a => rfl
            | dict entries => exact absurd ⟨entries, rfl⟩ both
        · intro entries _ is_base
          exact absurd ⟨entries, is_base⟩ both

theorem merge_overlays (base : Value κ α) :
    Overlays base override (mergeInto (some base) override) where
  wins := merge_wins distinct (some base)
  unites := merge_unites distinct (some base)
  keeps := merge_keeps distinct (some base)

end Laws

/-- A layer determines a path if it has a value there or cuts it off with a leaf above. -/
def Determines (layer : Value κ α) (path : List κ) : Prop :=
  layer.valueAt path ≠ none ∨
    ∃ above a, above <+: path ∧ above ≠ path ∧ layer.valueAt above = some (.leaf a)

/-- Nothing is below a leaf. -/
theorem valueAt_below_leaf {v : Value κ α} {above path : List κ} {a : α} (inside : above <+: path)
    (proper : above ≠ path) (cut : v.valueAt above = some (.leaf a)) : v.valueAt path = none := by
  induction above generalizing v path with
  | nil =>
    cases cut
    cases path with
    | nil => exact absurd rfl proper
    | cons k path => rfl
  | cons k above ih =>
    obtain ⟨rest, rfl⟩ := inside
    cases v with
    | leaf b => simp [valueAt] at cut
    | dict entries =>
      obtain ⟨w, found, cut⟩ := Option.bind_eq_some_iff.mp cut
      rw [List.cons_append, valueAt, found]
      exact ih (List.prefix_append above rest) (fun same => proper (congrArg (k :: ·) same)) cut

/-- A leaf of the result is the override's, or one of the base's that the override leaves
undetermined. -/
theorem Overlays.leaf_iff {base override result : Value κ α}
    (h : Overlays base override result) (path : List κ) (a : α) :
    result.valueAt path = some (.leaf a) ↔ override.valueAt path = some (.leaf a) ∨
      base.valueAt path = some (.leaf a) ∧ ¬override.Determines path := by
  cases set : override.valueAt path with
  | some v =>
    have determined : override.Determines path := Or.inl (by simp [set])
    cases v with
    | leaf x => simp [h.wins path _ set (.inl rfl), determined]
    | dict items =>
      simp only [determined, not_true_eq_false, and_false, or_false]
      by_cases both : ∃ entries, base.valueAt path = some (.dict entries)
      · obtain ⟨entries, below⟩ := both
        obtain ⟨merged, here, _⟩ := h.unites path entries items below set
        simp [here]
      · rw [h.wins path _ set]
        right
        intro b below
        cases b with
        | leaf x => rfl
        | dict entries => exact absurd ⟨entries, below⟩ both
  | none =>
    by_cases cut : ∃ above a, above <+: path ∧ above ≠ path ∧
        override.valueAt above = some (.leaf a)
    · have determined : override.Determines path := Or.inr cut
      obtain ⟨above, x, inside, proper, leaf⟩ := cut
      have gone := valueAt_below_leaf inside proper (h.wins above _ leaf (.inl rfl))
      simp [gone, determined]
    · have undetermined : ¬override.Determines path := by simp_all [Determines]
      rw [h.keeps path set]
      · simp [undetermined]
      · intro above x inside proper leaf
        exact cut ⟨above, x, inside, proper, leaf⟩

/-- The last layer that determines the path has this leaf there. -/
def LastSets (layers : List (Value κ α)) (path : List κ) (a : α) : Prop :=
  ∃ before layer after, layers = before ++ layer :: after ∧
    layer.valueAt path = some (.leaf a) ∧ ∀ later ∈ after, ¬later.Determines path

theorem lastSets_concat (layers : List (Value κ α)) (last : Value κ α) (path : List κ) (a : α) :
    LastSets (layers ++ [last]) path a ↔ last.valueAt path = some (.leaf a) ∨
      LastSets layers path a ∧ ¬last.Determines path := by
  constructor
  · rintro ⟨before, layer, after, split, leaf, free⟩
    induction after using List.reverseRecOn with
    | nil =>
      obtain ⟨rfl, ends⟩ := List.append_inj' split rfl
      cases ends
      exact Or.inl leaf
    | append_singleton after final _ =>
      rw [← List.cons_append, ← List.append_assoc] at split
      obtain ⟨rfl, ends⟩ := List.append_inj' split rfl
      cases ends
      simp only [List.mem_append, List.mem_singleton] at free
      exact Or.inr ⟨⟨before, layer, after, rfl, leaf, fun later h => free later (.inl h)⟩,
        free last (.inr rfl)⟩
  · intro h
    cases h with
    | inl leaf => exact ⟨layers, last, [], rfl, leaf, by simp⟩
    | inr h =>
      obtain ⟨⟨before, layer, after, rfl, leaf, free⟩, unset⟩ := h
      refine ⟨before, layer, after ++ [last], by simp, leaf, ?_⟩
      simp only [List.mem_append, List.mem_singleton]
      rintro later (within | rfl)
      · exact free later within
      · exact unset

/-- The layers laid over one another, the first at the bottom. -/
def mergeAll (layers : List (Value κ α)) : Value κ α :=
  layers.foldl (fun merged layer => mergeInto (some merged) layer) (.dict [])

/-- Every leaf of the merge is the one of the last layer that determines its path. -/
theorem mergeAll_leaf_iff (layers : List (Value κ α))
    (distinct : ∀ layer ∈ layers, layer.Distinct) (path : List κ) (a : α) :
    (mergeAll layers).valueAt path = some (.leaf a) ↔ LastSets layers path a := by
  induction layers using List.reverseRecOn with
  | nil =>
    cases path <;> simp [mergeAll, LastSets, valueAt]
  | append_singleton layers last ih =>
    simp only [List.mem_append, List.mem_singleton] at distinct
    have step := (merge_overlays (distinct last (.inr rfl)) (mergeAll layers)).leaf_iff path a
    rw [lastSets_concat, ← ih fun layer h => distinct layer (.inl h), ← step]
    simp [mergeAll]

/-- Not associative: what a middle layer cuts off, a later dictionary does not bring back. -/
example :
    let first : Value ℕ ℕ := .dict [(0, .dict [(1, .leaf 5)])]
    let second : Value ℕ ℕ := .dict [(0, .leaf 6)]
    let third : Value ℕ ℕ := .dict [(0, .dict [])]
    (mergeAll [first, second, third]).valueAt [0, 1] = none ∧
      (mergeAll [first, mergeAll [second, third]]).valueAt [0, 1] = some (.leaf 5) :=
  ⟨rfl, rfl⟩

end Value
end EdgeVoice.NestedDict
