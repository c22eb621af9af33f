import Mathlib

/-! Rows kept by key in the order their keys came: a value sets its key's row, or adds one. What
a table shows after values of the same keys as before are those values alone. -/

namespace EdgeVoice.KeyedRows

variable {κ β : Type*}

section Rows

variable [DecidableEq κ]

/-- A row is made for the first value of its key, and set by the later ones. -/
def setRow (rows : List (κ × β)) (key : κ) (value : β) : List (κ × β) :=
  if key ∈ rows.map Prod.fst then rows.map fun row => if row.1 = key then (key, value) else row
  else rows ++ [(key, value)]

def setRows (rows entries : List (κ × β)) : List (κ × β) :=
  entries.foldl (fun rows entry => setRow rows entry.1 entry.2) rows

theorem setRows_cons (rows : List (κ × β)) (entry : κ × β) (entries : List (κ × β)) :
    setRows rows (entry :: entries) = setRows (setRow rows entry.1 entry.2) entries := rfl

theorem setRows_new {rows entries : List (κ × β)}
    (distinct : ((rows ++ entries).map Prod.fst).Nodup) :
    setRows rows entries = rows ++ entries := by
  induction entries generalizing rows with
  | nil => simp [setRows]
  | cons entry entries ih =>
    have fresh : entry.1 ∉ rows.map Prod.fst := by
      intro old
      rw [List.map_append, List.map_cons] at distinct
      exact (List.nodup_append.mp distinct).2.2 _ old _ List.mem_cons_self rfl
    rw [setRows_cons, setRow, if_neg fresh, ih (by simpa using distinct)]
    simp

/-- Rows that are all there already are all set. -/
theorem setRows_known {done rows entries : List (κ × β)}
    (distinct : ((done ++ entries).map Prod.fst).Nodup)
    (known : rows.map Prod.fst = entries.map Prod.fst) :
    setRows (done ++ rows) entries = done ++ entries := by
  induction entries generalizing done rows with
  | nil =>
    obtain rfl : rows = [] := List.map_eq_nil_iff.mp known
    rfl
  | cons entry entries ih =>
    obtain ⟨row, rows, rfl⟩ := List.exists_cons_of_ne_nil
      (show rows ≠ [] by rintro rfl; cases known)
    obtain ⟨same, rest⟩ := List.cons_eq_cons.mp known
    have keys : ∀ other ∈ done ++ rows, other.1 ≠ entry.1 := by
      intro other member own
      rw [List.map_append, List.map_cons, List.nodup_append, List.nodup_cons] at distinct
      have there := List.mem_map_of_mem (f := Prod.fst) member
      rw [List.map_append, rest, own] at there
      rcases List.mem_append.mp there with before | after
      · exact distinct.2.2 _ before _ List.mem_cons_self rfl
      · exact distinct.2.1.1 after
    have set : setRow (done ++ row :: rows) entry.1 entry.2 = (done ++ [entry]) ++ rows := by
      have kept : ∀ l ⊆ done ++ rows,
          (l.map fun other => if other.1 = entry.1 then (entry.1, entry.2) else other) = l :=
        fun l inside => (List.map_congr_left fun other member =>
          if_neg (keys other (inside member))).trans (List.map_id l)
      have present : entry.1 ∈ (done ++ row :: rows).map Prod.fst := by simp [← same]
      rw [setRow, if_pos present, List.map_append, List.map_cons, if_pos same,
        kept done (List.subset_append_left _ _), kept rows (List.subset_append_right _ _)]
      simp
    rw [setRows_cons, set, ih (by simpa using distinct) rest]
    simp

theorem setRow_keys (rows : List (κ × β)) (key : κ) (value : β) :
    (setRow rows key value).map Prod.fst =
      rows.map Prod.fst ++ [key].filter fun k => k ∉ rows.map Prod.fst := by
  rw [setRow]
  split
  · rename_i present
    rw [List.map_map, List.filter_singleton]
    simp only [present, not_true_eq_false, decide_false, cond_false, List.append_nil]
    refine List.map_congr_left fun row _ => ?_
    by_cases own : row.1 = key
    · simp [own]
    · simp [own]
  · rename_i absent
    simp [absent]

/-- Rows stay where they are, and new ones come after them as they are set. -/
theorem setRows_keys {rows entries : List (κ × β)} (distinct : (entries.map Prod.fst).Nodup) :
    (setRows rows entries).map Prod.fst =
      rows.map Prod.fst ++ (entries.map Prod.fst).filter fun k => k ∉ rows.map Prod.fst := by
  induction entries generalizing rows with
  | nil => simp [setRows]
  | cons entry entries ih =>
    rw [List.map_cons, List.nodup_cons] at distinct
    obtain ⟨fresh, distinct⟩ := distinct
    have later : ((entries.map Prod.fst).filter fun k =>
          k ∉ rows.map Prod.fst ++ [entry.1].filter fun k => k ∉ rows.map Prod.fst) =
        (entries.map Prod.fst).filter fun k => k ∉ rows.map Prod.fst := by
      refine List.filter_congr fun k member => ?_
      have away : k ≠ entry.1 := fun same => fresh (same ▸ member)
      simp [away]
    rw [setRows_cons, ih distinct, setRow_keys, later, List.append_assoc, ← List.filter_append,
      List.map_cons, List.singleton_append]

theorem mem_setRow {rows : List (κ × β)} {key : κ} {value : β} {row : κ × β} :
    row ∈ setRow rows key value ↔ row = (key, value) ∨ row ∈ rows ∧ row.1 ≠ key := by
  rw [setRow]
  split
  · rename_i present
    rw [List.mem_map]
    constructor
    · rintro ⟨old, before, rfl⟩
      by_cases own : old.1 = key
      · exact Or.inl (if_pos own)
      · exact Or.inr (by rw [if_neg own]; exact ⟨before, own⟩)
    · rintro (rfl | ⟨old, other⟩)
      · obtain ⟨before, there, own⟩ := List.mem_map.mp present
        exact ⟨before, there, if_pos own⟩
      · exact ⟨row, old, if_neg other⟩
  · rename_i absent
    have away (old : row ∈ rows) : row.1 ≠ key := fun own => absent (own ▸ List.mem_map_of_mem old)
    rw [List.mem_append, List.mem_singleton, or_comm]
    exact or_congr_right ⟨fun old => ⟨old, away old⟩, fun both => both.1⟩

/-- A row says what the last values say of its key, or what it said before. -/
theorem mem_setRows {rows entries : List (κ × β)} (distinct : (entries.map Prod.fst).Nodup)
    {row : κ × β} :
    row ∈ setRows rows entries ↔ row ∈ entries ∨ row ∈ rows ∧ row.1 ∉ entries.map Prod.fst := by
  induction entries generalizing rows with
  | nil => simp [setRows]
  | cons entry entries ih =>
    rw [List.map_cons, List.nodup_cons] at distinct
    rw [setRows_cons, ih distinct.2, mem_setRow, List.mem_cons, List.map_cons, List.mem_cons,
      not_or]
    by_cases first : row = entry
    · subst first
      simp [distinct.1]
    · simp [first, and_assoc]

end Rows

section Lookup

variable [BEq κ] [LawfulBEq κ]

theorem lookup_of_mem {rows : List (κ × β)} (distinct : (rows.map Prod.fst).Nodup)
    {row : κ × β} (member : row ∈ rows) : rows.lookup row.1 = some row.2 := by
  induction rows with
  | nil => cases member
  | cons first rows ih =>
    rw [List.map_cons, List.nodup_cons] at distinct
    rcases List.mem_cons.mp member with rfl | later
    · exact List.lookup_cons_self
    · have away : row.1 ≠ first.1 := fun same =>
        distinct.1 (same ▸ List.mem_map_of_mem later)
      obtain ⟨k, old⟩ := first
      simp [List.lookup_cons, beq_false_of_ne away, ih distinct.2 later]

variable [DecidableEq κ]

end Lookup

end EdgeVoice.KeyedRows
