import EdgeVoice.Framing

/-! A log that is rotated by size, as Python's RotatingFileHandler keeps it: a base file and
numbered backups of it. What it does to the directory is a list of operations that may break
off after any of them; a record is written a symbol at a time. -/

namespace EdgeVoice.RotatingLog
open StepSystem Framing

variable {α β : Type*}

/-- The files by number; the base file has the number 0. -/
abbrev Dir (β : Type*) := ℕ → Option (List β)

inductive Op (β : Type*)
  | remove (i : ℕ)
  | rename (source dest : ℕ)
  | openBase
  | append (item : β)

def Op.apply (dir : Dir β) : Op β → Dir β
  | .remove i => Function.update dir i none
  | .rename source dest => Function.update (Function.update dir dest (dir source)) source none
  | .openBase => Function.update dir 0 (some ((dir 0).getD []))
  | .append item => Function.update dir 0 ((dir 0).map (· ++ [item]))

def after (dir : Dir β) (ops : List (Op β)) : Dir β := ops.foldl Op.apply dir

/-- `rollsEmpty` is false from the release on that never rolls an empty file. -/
structure Limits where
  maxBytes : ℕ
  backupCount : ℕ
  rollsEmpty : Bool
  maxBytes_pos : 0 < maxBytes

/-- `shouldRollover`, from the size of the base file and the length of the line. -/
def shouldRollover (limits : Limits) (size chars : ℕ) : Bool :=
  (limits.rollsEmpty || size ≠ 0) && limits.maxBytes ≤ size + chars

/-- `if os.path.exists(dfn): os.remove(dfn)`. -/
def clear (i : ℕ) (dir : Dir β) : List (Op β) := if (dir i).isSome then [.remove i] else []

/-- One backup moves on to the next number. -/
def shift (i : ℕ) (dir : Dir β) : List (Op β) :=
  if (dir i).isSome then clear (i + 1) dir ++ [.rename i (i + 1)] else []

/-- `for i in range(n, 0, -1)`. -/
def shifts : ℕ → Dir β → List (Op β)
  | 0, _ => []
  | i + 1, dir => shift (i + 1) dir ++ shifts i (after dir (shift (i + 1) dir))

def doRollover (count : ℕ) (dir : Dir β) : List (Op β) :=
  if count = 0 then [.openBase]
  else
    let moved := shifts (count - 1) dir
    moved ++ (clear 1 (after dir moved) ++ [.rename 0 1, .openBase])

/-- `emit` of one record, whose line is `items`. -/
def emit (limits : Limits) (size : List β → ℕ) (chars : ℕ) (items : List β) (dir : Dir β) :
    List (Op β) :=
  (if shouldRollover limits (size ((dir 0).getD [])) chars then
    doRollover limits.backupCount dir else []) ++ items.map .append

/-- The operations that logging the records takes. -/
def logging (limits : Limits) (size : List β → ℕ) (chars : α → ℕ) (items : α → List β) :
    Dir β → List α → List (Op β)
  | _, [] => []
  | dir, r :: records =>
    let ops := emit limits size (chars r) (items r) dir
    ops ++ logging limits size chars items (after dir ops) records

/-- The directory of a new log, after the handler has opened its base file. -/
def fresh : Dir β := Function.update (fun _ => none) 0 (some [])

/-- What the files hold together, the oldest first. -/
def readBack (dir : Dir β) : ℕ → List β
  | 0 => (dir 0).getD []
  | i + 1 => (dir (i + 1)).getD [] ++ readBack dir i

/-- What has been appended. -/
def appended (ops : List (Op β)) : List β :=
  ops.filterMap fun
    | .append item => some item
    | _ => none

@[simp] theorem after_nil (dir : Dir β) : after dir [] = dir := rfl

@[simp] theorem after_cons (dir : Dir β) (op : Op β) (ops : List (Op β)) :
    after dir (op :: ops) = after (op.apply dir) ops := rfl

@[simp] theorem after_append (dir : Dir β) (ops more : List (Op β)) :
    after dir (ops ++ more) = after (after dir ops) more := List.foldl_append

@[simp] theorem appended_append (ops more : List (Op β)) :
    appended (ops ++ more) = appended ops ++ appended more := List.filterMap_append

theorem appended_mono {ops more : List (Op β)} (early : ops <+: more) :
    appended ops <+: appended more := early.filterMap _

theorem rename_other {dir : Dir β} {i j k : ℕ} (source : k ≠ i) (dest : k ≠ j) :
    (Op.rename i j).apply dir k = dir k := by
  rw [Op.apply, Function.update_of_ne source, Function.update_of_ne dest]

theorem openBase_other {dir : Dir β} {k : ℕ} (other : k ≠ 0) : Op.openBase.apply dir k = dir k := by
  rw [Op.apply, Function.update_of_ne other]

theorem append_other {dir : Dir β} {item : β} {k : ℕ} (other : k ≠ 0) :
    (Op.append item).apply dir k = dir k := by
  rw [Op.apply, Function.update_of_ne other]

section ReadBack

variable {dir dir' : Dir β} {n : ℕ}

theorem readBack_congr (same : ∀ i ≤ n, dir i = dir' i) : readBack dir n = readBack dir' n := by
  induction n with
  | zero => rw [readBack, readBack, same 0 le_rfl]
  | succ n ih =>
    rw [readBack, readBack, same _ le_rfl, ih fun i below => same i (Nat.le_succ_of_le below)]

theorem base_suffix (dir : Dir β) (n : ℕ) : (dir 0).getD [] <:+ readBack dir n := by
  induction n with
  | zero => exact List.suffix_rfl
  | succ n ih => exact ih.trans (List.suffix_append _ _)

theorem readBack_length_le {bound : ℕ}
    (fits : ∀ i held, dir i = some held → held.length ≤ bound) :
    (readBack dir n).length ≤ (n + 1) * bound := by
  have file (i : ℕ) : ((dir i).getD []).length ≤ bound := by
    cases there : dir i with
    | none => exact Nat.zero_le bound
    | some held => exact fits i held there
  induction n with
  | zero => simpa [readBack] using file 0
  | succ n ih =>
    have last := file (n + 1)
    rw [readBack, List.length_append, Nat.succ_mul]
    omega

/-- The oldest file goes, and what it held. -/
theorem readBack_remove (dir : Dir β) (n : ℕ) :
    readBack dir (n + 1) =
      (dir (n + 1)).getD [] ++ readBack ((Op.remove (n + 1)).apply dir) (n + 1) := by
  have below : readBack ((Op.remove (n + 1)).apply dir) n = readBack dir n := by
    refine readBack_congr fun i small => ?_
    rw [Op.apply, Function.update_of_ne (by omega)]
  rw [readBack, readBack, below, Op.apply, Function.update_self]
  rfl

theorem readBack_rename {i : ℕ} (inside : i + 1 ≤ n) (free : dir (i + 1) = none) :
    readBack ((Op.rename i (i + 1)).apply dir) n = readBack dir n := by
  induction n with
  | zero => omega
  | succ n ih =>
    by_cases last : i = n
    · subst last
      have moved : (Op.rename i (i + 1)).apply dir (i + 1) = dir i := by
        rw [Op.apply, Function.update_of_ne (by omega), Function.update_self]
      rw [readBack, readBack, moved, free]
      cases i with
      | zero => simp [readBack, Op.apply]
      | succ i =>
        have below : readBack ((Op.rename (i + 1) (i + 1 + 1)).apply dir) i = readBack dir i := by
          exact readBack_congr fun k small => rename_other (by omega) (by omega)
        rw [readBack, readBack, below, Op.apply, Function.update_self]
        rfl
    · have above : (Op.rename i (i + 1)).apply dir (n + 1) = dir (n + 1) :=
        rename_other (by omega) (by omega)
      rw [readBack, readBack, above, ih (by omega)]

theorem readBack_openBase (dir : Dir β) (n : ℕ) :
    readBack (Op.openBase.apply dir) n = readBack dir n := by
  induction n with
  | zero => simp [readBack, Op.apply]
  | succ n ih =>
    rw [readBack, readBack, ih, openBase_other (by omega)]

theorem readBack_append {base : List β} (there : dir 0 = some base) (item : β) (n : ℕ) :
    readBack ((Op.append item).apply dir) n = readBack dir n ++ [item] := by
  induction n with
  | zero => simp [readBack, Op.apply, there]
  | succ n ih =>
    rw [readBack, readBack, ih, List.append_assoc, append_other (by omega)]

theorem readBack_items {base : List β} (there : dir 0 = some base) (items : List β) (n : ℕ) :
    readBack (after dir (items.map .append)) n = readBack dir n ++ items := by
  induction items generalizing dir base with
  | nil => simp
  | cons item items ih =>
    have longer : (Op.append item).apply dir 0 = some (base ++ [item]) := by
      simp [Op.apply, there]
    rw [List.map_cons, after_cons, ih longer, readBack_append there, List.append_assoc]
    rfl

end ReadBack

section Order

/-- When an operation keeps the order of the log, loses nothing but the oldest file, and keeps
the base file within the limit. -/
def Tidy (limits : Limits) (size : List α → ℕ) (chars : α → ℕ) (dir : Dir α) : Op α → Prop
  | .remove i => i = limits.backupCount ∧ 0 < i ∧ (dir 0).getD [] ≠ []
  | .rename i j => j = i + 1 ∧ j ≤ limits.backupCount ∧ dir j = none
  | .openBase => True
  | .append r => ∃ base, dir 0 = some base ∧
      (0 < limits.backupCount → size base = 0 ∨ size base + chars r < limits.maxBytes)

/-- Every operation of a list is tidy in its turn. -/
def AllTidy (limits : Limits) (size : List α → ℕ) (chars : α → ℕ) : Dir α → List (Op α) → Prop
  | _, [] => True
  | dir, op :: ops => Tidy limits size chars dir op ∧ AllTidy limits size chars (op.apply dir) ops

/-- A directory with no numbers beyond the last, whose backups came of a base file that was
not empty. -/
structure Ready (limits : Limits) (dir : Dir α) : Prop where
  beyond : ∀ i, limits.backupCount < i → dir i = none
  begun : (dir 0).getD [] ≠ [] ∨ ∀ i, 0 < i → dir i = none

variable {limits : Limits} {dir : Dir α} (size : List α → ℕ) (chars : α → ℕ)

theorem allTidy_append (ops more : List (Op α)) :
    AllTidy limits size chars dir (ops ++ more) ↔
      AllTidy limits size chars dir ops ∧ AllTidy limits size chars (after dir ops) more := by
  induction ops generalizing dir with
  | nil => simp [AllTidy]
  | cons op ops ih => simp only [List.cons_append, AllTidy, ih, after_cons, and_assoc]

theorem Ready.base_begun {i : ℕ} (ready : Ready limits dir) (later : 0 < i)
    (there : (dir i).isSome) : (dir 0).getD [] ≠ [] := by
  refine ready.begun.resolve_right fun nothing => ?_
  rw [nothing i later] at there
  cases there

theorem clear_free (i : ℕ) : after dir (clear i dir) i = none := by
  unfold clear
  split
  · simp [Op.apply]
  · rename_i free
    exact Option.not_isSome_iff_eq_none.mp free

theorem clear_other {i k : ℕ} (other : k ≠ i) : after dir (clear i dir) k = dir k := by
  unfold clear
  split
  · simp [Op.apply, Function.update_of_ne other]
  · rfl

/-- Only the last number is ever taken, and what it holds is the oldest. -/
theorem clear_tidy {i : ℕ} (ready : Ready limits dir) (later : 0 < i)
    (taken : i = limits.backupCount ∨ dir i = none) :
    AllTidy limits size chars dir (clear i dir) := by
  unfold clear
  split
  · rename_i there
    refine ⟨⟨taken.resolve_right fun free => ?_, later, ready.base_begun later there⟩, trivial⟩
    rw [free] at there
    cases there
  · exact trivial

/-- A move on of one backup frees its number. -/
theorem shift_tidy {i : ℕ} (ready : Ready limits dir) (later : 0 < i)
    (small : i + 1 ≤ limits.backupCount)
    (taken : i + 1 = limits.backupCount ∨ dir (i + 1) = none) :
    AllTidy limits size chars dir (shift i dir) ∧ Ready limits (after dir (shift i dir)) ∧
      after dir (shift i dir) 0 = dir 0 ∧ after dir (shift i dir) i = none := by
  by_cases there : (dir i).isSome
  · have moved (k : ℕ) : after dir (shift i dir) k =
        (Op.rename i (i + 1)).apply (after dir (clear (i + 1) dir)) k := by
      rw [shift, if_pos there, after_append]
      rfl
    have elsewhere {k : ℕ} (other : k ≠ i) (next : k ≠ i + 1) :
        after dir (shift i dir) k = dir k := by
      rw [moved, rename_other other next, clear_other next]
    have base := elsewhere (k := 0) (by omega) (by omega)
    have begun := ready.base_begun later there
    refine ⟨?_, ⟨fun k far => ?_, Or.inl (base ▸ begun)⟩, base, ?_⟩
    · rw [shift, if_pos there, allTidy_append]
      exact ⟨clear_tidy size chars ready (by omega) taken, ⟨rfl, small, clear_free _⟩, trivial⟩
    · rw [elsewhere (by omega) (by omega), ready.beyond k far]
    · rw [moved, Op.apply, Function.update_self]
  · rw [shift, if_neg there]
    exact ⟨trivial, ready, rfl, Option.not_isSome_iff_eq_none.mp there⟩

/-- Moving the backups on frees the first number, except that of the only backup. -/
theorem shifts_tidy {n : ℕ} (ready : Ready limits dir) (small : n + 1 ≤ limits.backupCount)
    (taken : n + 1 = limits.backupCount ∨ dir (n + 1) = none) :
    AllTidy limits size chars dir (shifts n dir) ∧ Ready limits (after dir (shifts n dir)) ∧
      after dir (shifts n dir) 0 = dir 0 ∧
      (1 = limits.backupCount ∨ after dir (shifts n dir) 1 = none) := by
  induction n generalizing dir with
  | zero => exact ⟨trivial, ready, rfl, taken⟩
  | succ n ih =>
    rw [shifts, allTidy_append, after_append]
    obtain ⟨now, still, base, free⟩ :=
      shift_tidy size chars ready (Nat.succ_pos n) (by omega) taken
    obtain ⟨rest, last, same, first⟩ := ih still (by omega) (Or.inr free)
    exact ⟨⟨now, rest⟩, last, same.trans base, first⟩

/-- A rollover leaves an empty base file, unless no backups are kept. -/
theorem doRollover_tidy {base : List α} (ready : Ready limits dir) (there : dir 0 = some base) :
    AllTidy limits size chars dir (doRollover limits.backupCount dir) ∧
      (∀ i, limits.backupCount < i → after dir (doRollover limits.backupCount dir) i = none) ∧
      (after dir (doRollover limits.backupCount dir) 0 = some [] ∨
        limits.backupCount = 0 ∧ after dir (doRollover limits.backupCount dir) 0 = some base) := by
  by_cases zero : limits.backupCount = 0
  · rw [doRollover, if_pos zero]
    refine ⟨⟨trivial, trivial⟩, fun i far => ?_, Or.inr ⟨zero, ?_⟩⟩
    · rw [after_cons, after_nil, openBase_other (by omega), ready.beyond i far]
    · simp [Op.apply, there]
  · obtain ⟨moves, still, same, first⟩ :=
      shifts_tidy size chars (n := limits.backupCount - 1) ready (by omega) (Or.inl (by omega))
    rw [doRollover, if_neg zero, allTidy_append, allTidy_append]
    simp only [after_append, after_cons, after_nil]
    refine ⟨⟨moves, clear_tidy size chars still Nat.one_pos first, ?_⟩, fun i far => ?_,
      Or.inl ?_⟩
    · exact ⟨⟨rfl, by omega, clear_free 1⟩, trivial, trivial⟩
    · rw [openBase_other (by omega), rename_other (by omega) (by omega), clear_other (by omega),
        still.beyond i far]
    · simp [Op.apply]

theorem append_ready {base : List α} (there : dir 0 = some base)
    (beyond : ∀ i, limits.backupCount < i → dir i = none) (r : α) :
    Ready limits ((Op.append r).apply dir) ∧
      (Op.append r).apply dir 0 = some (base ++ [r]) := by
  have written : (Op.append r).apply dir 0 = some (base ++ [r]) := by simp [Op.apply, there]
  refine ⟨⟨fun i far => ?_, Or.inl (by simp [written])⟩, written⟩
  rw [append_other (by omega), beyond i far]

/-- A record that does not roll the file over fits into it, or is the first in it. -/
theorem fits_of_stays {size chars : ℕ} (stays : ¬shouldRollover limits size chars = true) :
    size = 0 ∨ size + chars < limits.maxBytes := by
  by_contra full
  simp only [not_or, not_lt] at full
  simp [shouldRollover, full] at stays

variable {size} in
/-- Whatever one record takes is tidy, and the directory is ready for the next. -/
theorem emit_tidy {base : List α} (empty : size [] = 0) (ready : Ready limits dir)
    (there : dir 0 = some base) (r : α) :
    AllTidy limits size chars dir (emit limits size (chars r) [r] dir) ∧
      Ready limits (after dir (emit limits size (chars r) [r] dir)) ∧
      ∃ next, after dir (emit limits size (chars r) [r] dir) 0 = some next := by
  rw [emit, there, Option.getD_some, List.map_singleton, allTidy_append, after_append]
  split
  · obtain ⟨rolled, beyond, opened⟩ := doRollover_tidy size chars ready there
    rcases opened with opened | ⟨zero, same⟩
    · obtain ⟨ready', written⟩ := append_ready opened beyond r
      exact ⟨⟨rolled, ⟨[], opened, fun _ => Or.inl empty⟩, trivial⟩, ready', _, written⟩
    · obtain ⟨ready', written⟩ := append_ready same beyond r
      exact ⟨⟨rolled, ⟨base, same, fun many => by omega⟩, trivial⟩, ready', _, written⟩
  · rename_i stays
    obtain ⟨ready', written⟩ := append_ready there ready.beyond r
    exact ⟨⟨trivial, ⟨base, there, fun _ => fits_of_stays stays⟩, trivial⟩, ready', _, written⟩

variable {size} in
theorem logging_tidy {base : List α} (empty : size [] = 0) (ready : Ready limits dir)
    (there : dir 0 = some base) (records : List α) :
    AllTidy limits size chars dir (logging limits size chars (fun r => [r]) dir records) := by
  induction records generalizing dir base with
  | nil => trivial
  | cons r records ih =>
    obtain ⟨now, ready', _, there'⟩ := emit_tidy chars empty ready there r
    rw [logging, allTidy_append]
    exact ⟨now, ih ready' there'⟩

/-- What tidy operations keep. -/
structure Kept (limits : Limits) (size : List α → ℕ) (bound : ℕ) (logged : List α)
    (dir : Dir α) : Prop where
  order : ∃ lost, logged = lost ++ readBack dir limits.backupCount
  latest : logged ≠ [] → readBack dir limits.backupCount ≠ []
  beyond : ∀ i, limits.backupCount < i → dir i = none
  fits : 0 < limits.backupCount → ∀ i held, dir i = some held → size held ≤ bound

variable {size} {chars}

theorem Kept.step {bound : ℕ} {logged : List α} {op : Op α} (empty : size [] = 0)
    (h : Kept limits size bound logged dir) (tidy : Tidy limits size chars dir op)
    (room : ∀ r ∈ appended [op], ∀ base, size base = 0 ∨ size base + chars r < limits.maxBytes →
      size (base ++ [r]) ≤ bound) :
    Kept limits size bound (logged ++ appended [op]) (op.apply dir) := by
  obtain ⟨lost, order⟩ := h.order
  cases op with
  | remove i =>
    obtain ⟨last, later, begun⟩ := tidy
    obtain ⟨n, rfl⟩ := Nat.exists_eq_add_one_of_ne_zero (Nat.ne_of_gt later)
    have base : (Op.remove (n + 1)).apply dir 0 = dir 0 := by
      rw [Op.apply, Function.update_of_ne (by omega)]
    refine ⟨⟨lost ++ (dir (n + 1)).getD [], ?_⟩, fun _ nothing => ?_, fun k far => ?_,
      fun many k held there => ?_⟩
    · rw [← last, List.append_assoc, ← readBack_remove, last, ← order]
      exact List.append_nil _
    · have suffix := base_suffix ((Op.remove (n + 1)).apply dir) limits.backupCount
      rw [nothing, base, List.suffix_nil] at suffix
      exact begun suffix
    · rw [Op.apply, Function.update_of_ne (by omega), h.beyond k far]
    · by_cases same : k = n + 1
      · rw [same, Op.apply, Function.update_self] at there
        cases there
      · rw [Op.apply, Function.update_of_ne same] at there
        exact h.fits many k held there
  | rename i j =>
    obtain ⟨rfl, small, free⟩ := tidy
    have same := readBack_rename small free
    refine ⟨⟨lost, ?_⟩, ?_, fun k far => ?_, fun many k held there => ?_⟩
    · rw [same, ← order]
      exact List.append_nil _
    · rw [same]
      exact fun made => h.latest (by simpa [appended] using made)
    · rw [rename_other (by omega) (by omega), h.beyond k far]
    · rw [Op.apply] at there
      by_cases source : k = i
      · rw [source, Function.update_self] at there
        cases there
      · rw [Function.update_of_ne source] at there
        by_cases dest : k = i + 1
        · rw [dest, Function.update_self] at there
          exact h.fits many i held there
        · rw [Function.update_of_ne dest] at there
          exact h.fits many k held there
  | openBase =>
    have same := readBack_openBase dir limits.backupCount
    refine ⟨⟨lost, ?_⟩, ?_, fun k far => ?_, fun many k held there => ?_⟩
    · rw [same, ← order]
      exact List.append_nil _
    · rw [same]
      exact fun made => h.latest (by simpa [appended] using made)
    · rw [openBase_other (by omega), h.beyond k far]
    · by_cases first : k = 0
      · rw [first, Op.apply, Function.update_self] at there
        cases there
        cases base : dir 0 with
        | none => simp [empty]
        | some held => exact h.fits many 0 held base
      · rw [openBase_other first] at there
        exact h.fits many k held there
  | append r =>
    obtain ⟨base, there, fits⟩ := tidy
    have longer := readBack_append there r limits.backupCount
    refine ⟨⟨lost, ?_⟩, fun _ => ?_, fun k far => ?_, fun many k held found => ?_⟩
    · rw [longer, ← List.append_assoc, ← order]
      rfl
    · rw [longer]
      simp
    · rw [append_other (by omega), h.beyond k far]
    · by_cases first : k = 0
      · have written : (Op.append r).apply dir 0 = some (base ++ [r]) := by
          simp [Op.apply, there]
        rw [first, written] at found
        cases found
        exact room r (by simp [appended]) base (fits many)
      · rw [append_other first] at found
        exact h.fits many k held found

theorem Kept.after {bound : ℕ} {logged : List α} {ops : List (Op α)} (empty : size [] = 0)
    (h : Kept limits size bound logged dir) (tidy : AllTidy limits size chars dir ops)
    (room : ∀ r ∈ appended ops, ∀ base, size base = 0 ∨ size base + chars r < limits.maxBytes →
      size (base ++ [r]) ≤ bound) :
    Kept limits size bound (logged ++ appended ops) (after dir ops) := by
  induction ops generalizing dir logged with
  | nil => simpa [appended] using h
  | cons op ops ih =>
    have split : appended (op :: ops) = appended [op] ++ appended ops := appended_append [op] ops
    rw [split] at room ⊢
    rw [← List.append_assoc]
    exact ih (h.step empty tidy.1 fun r made => room r (List.mem_append_left _ made)) tidy.2
      fun r made => room r (List.mem_append_right _ made)

end Order

section Records

variable {limits : Limits} {size : List β → ℕ} {chars : α → ℕ} {items : α → List β}

theorem appended_clear (i : ℕ) (dir : Dir β) : appended (clear i dir) = [] := by
  unfold clear
  split <;> rfl

theorem appended_shifts (n : ℕ) (dir : Dir β) : appended (shifts n dir) = [] := by
  induction n generalizing dir with
  | zero => rfl
  | succ n ih =>
    have now : appended (shift (n + 1) dir) = [] := by
      unfold shift
      split
      · rw [appended_append, appended_clear]
        rfl
      · rfl
    rw [shifts, appended_append, now, ih, List.nil_append]

theorem appended_doRollover (count : ℕ) (dir : Dir β) : appended (doRollover count dir) = [] := by
  unfold doRollover
  split
  · rfl
  · simp only [appended_append, appended_shifts, appended_clear]
    rfl

theorem appended_items (items : List β) : appended (items.map .append) = items := by
  induction items with
  | nil => rfl
  | cons item items ih => exact congrArg (List.cons item) ih

/-- What is logged are the lines of the records. -/
theorem appended_logging (dir : Dir β) (records : List α) :
    appended (logging limits size chars items dir records) = records.flatMap items := by
  induction records generalizing dir with
  | nil => rfl
  | cons r records ih =>
    have now : appended (emit limits size (chars r) (items r) dir) = items r := by
      rw [emit, appended_append, appended_items]
      split
      · rw [appended_doRollover, List.nil_append]
      · rfl
    rw [logging, appended_append, now, ih, List.flatMap_cons]

end Records

section Expansion

variable {limits : Limits} {chars : α → ℕ} {line : α → List β}

/-- A directory of records, written out. -/
def expand (line : α → List β) (dir : Dir α) : Dir β := fun i => (dir i).map (·.flatMap line)

/-- An operation on records, as operations on symbols. -/
def written (line : α → List β) : Op α → List (Op β)
  | .remove i => [.remove i]
  | .rename i j => [.rename i j]
  | .openBase => [.openBase]
  | .append r => (line r).map .append

/-- The size of some records, written out. -/
def extent (line : α → List β) (held : List α) : ℕ := (held.flatMap line).length

theorem extent_concat (held : List α) (r : α) :
    extent line (held ++ [r]) = extent line held + (line r).length := by simp [extent]

theorem isSome_expand (dir : Dir α) (i : ℕ) : (expand line dir i).isSome = (dir i).isSome :=
  Option.isSome_map

theorem readBack_expand (dir : Dir α) (n : ℕ) :
    readBack (expand line dir) n = (readBack dir n).flatMap line := by
  have file (i : ℕ) : (expand line dir i).getD [] = ((dir i).getD []).flatMap line := by
    cases held : dir i <;> simp [expand, held]
  induction n with
  | zero => exact file 0
  | succ n ih => rw [readBack, readBack, ih, file, List.flatMap_append]

theorem after_items (dir : Dir β) (items : List β) :
    after dir (items.map .append) = Function.update dir 0 ((dir 0).map (· ++ items)) := by
  induction items generalizing dir with
  | nil => cases base : dir 0 <;> simp [← base]
  | cons item items ih =>
    rw [List.map_cons, after_cons, ih]
    cases base : dir 0 <;> simp [Op.apply, base]

theorem after_written (dir : Dir α) (op : Op α) :
    after (expand line dir) (written line op) = expand line (op.apply dir) := by
  cases op with
  | remove i =>
    funext k
    by_cases here : k = i <;> simp [written, expand, Op.apply, here]
  | rename i j =>
    funext k
    by_cases source : k = i
    · simp [written, expand, Op.apply, source]
    · by_cases dest : k = j
      · subst dest
        simp [written, expand, Op.apply, source]
      · simp [written, expand, Op.apply, source, dest]
  | openBase =>
    funext k
    by_cases here : k = 0
    · cases base : dir 0 <;> simp [written, expand, Op.apply, here, base]
    · simp [written, expand, Op.apply, here]
  | append r =>
    funext k
    rw [written, after_items]
    by_cases here : k = 0
    · cases base : dir 0 <;> simp [expand, Op.apply, here, base]
    · simp [expand, Op.apply, here]

theorem after_expand (dir : Dir α) (ops : List (Op α)) :
    after (expand line dir) (ops.flatMap (written line)) = expand line (after dir ops) := by
  induction ops generalizing dir with
  | nil => rfl
  | cons op ops ih => rw [List.flatMap_cons, after_append, after_written, ih, after_cons]

theorem clear_expand (i : ℕ) (dir : Dir α) :
    clear i (expand line dir) = (clear i dir).flatMap (written line) := by
  rw [clear, clear, isSome_expand]
  split <;> rfl

theorem shift_expand (i : ℕ) (dir : Dir α) :
    shift i (expand line dir) = (shift i dir).flatMap (written line) := by
  rw [shift, shift, isSome_expand, clear_expand]
  split
  · rw [List.flatMap_append]
    rfl
  · rfl

theorem shifts_expand (n : ℕ) (dir : Dir α) :
    shifts n (expand line dir) = (shifts n dir).flatMap (written line) := by
  induction n generalizing dir with
  | zero => rfl
  | succ n ih => rw [shifts, shifts, shift_expand, after_expand, ih, List.flatMap_append]

theorem doRollover_expand (count : ℕ) (dir : Dir α) :
    doRollover count (expand line dir) = (doRollover count dir).flatMap (written line) := by
  rw [doRollover, doRollover]
  split
  · rfl
  · simp only [shifts_expand, after_expand, clear_expand, List.flatMap_append]
    rfl

theorem emit_expand (dir : Dir α) (r : α) :
    emit limits List.length (chars r) (line r) (expand line dir) =
      (emit limits (extent line) (chars r) [r] dir).flatMap (written line) := by
  have size : ((expand line dir 0).getD []).length = extent line ((dir 0).getD []) := by
    cases held : dir 0 <;> simp [expand, extent, held]
  rw [emit, emit, size, doRollover_expand, List.flatMap_append]
  split <;> simp [written]

/-- Logging writes out what it would do to whole records. -/
theorem logging_expand (dir : Dir α) (records : List α) :
    logging limits List.length chars line (expand line dir) records =
      (logging limits (extent line) chars (fun r => [r]) dir records).flatMap (written line) := by
  induction records generalizing dir with
  | nil => rfl
  | cons r records ih =>
    rw [logging, logging, emit_expand, after_expand, ih, List.flatMap_append]

theorem expand_fresh : expand line fresh = fresh := by
  funext k
  by_cases here : k = 0 <;> simp [expand, fresh, here]

end Expansion

section Cuts

variable {limits : Limits} {chars : α → ℕ} {line : α → List β} {records : List α}

theorem readBack_fresh (n : ℕ) : readBack (fresh : Dir β) n = [] := by
  induction n with
  | zero => simp [readBack, fresh]
  | succ n ih =>
    rw [readBack, ih, List.append_nil, fresh, Function.update_of_ne (by omega)]
    rfl

theorem kept_fresh (bound : ℕ) : Kept limits (extent line) bound [] fresh := by
  refine ⟨⟨[], ?_⟩, fun nothing => absurd rfl nothing, fun i far => ?_, fun _ i held there => ?_⟩
  · rw [readBack_fresh, List.nil_append]
  · rw [fresh, Function.update_of_ne (by omega)]
  · by_cases first : i = 0
    · rw [first, fresh, Function.update_self] at there
      cases there
      exact Nat.zero_le bound
    · rw [fresh, Function.update_of_ne first] at there
      cases there

/-- The operations on whole records that come to these on symbols, as far as they go, and how
much of the next line is written. -/
structure Broken (limits : Limits) (chars : α → ℕ) (line : α → List β) (records : List α)
    (done : List (Op β)) (ops : List (Op α)) (part : List β) : Prop where
  early : ops <+: logging limits (extent line) chars (fun r => [r]) fresh records
  reached : done = ops.flatMap (written line) ++ part.map .append
  less : part = [] ∨ ∃ r, ops ++ [.append r] <+:
    logging limits (extent line) chars (fun r => [r]) fresh records ∧
      part <+: line r ∧ part ≠ line r

theorem exists_broken {done : List (Op β)}
    (early : done <+: logging limits List.length chars line fresh records) :
    ∃ ops part, Broken limits chars line records done ops part := by
  have expanded := @logging_expand α β limits chars line fresh records
  rw [expand_fresh] at expanded
  rw [expanded] at early
  obtain ⟨ops, cut⟩ := exists_cut (written line)
    (logging limits (extent line) chars (fun r => [r]) fresh records) done
  obtain ⟨rest, reached, less⟩ := cut.rest early
  rcases less with rfl | ⟨op, next, inside, short⟩
  · exact ⟨ops, [], cut.order, by simpa using reached, Or.inl rfl⟩
  · have nothing {only : Op β} (inside : rest <+: [only]) (short : rest ≠ [only]) : rest = [] := by
      rcases List.prefix_cons_iff.mp inside with none | ⟨rest', rfl, none⟩
      · exact none
      · rw [List.prefix_nil.mp none] at short
        exact absurd rfl short
    cases op with
    | append r =>
      obtain ⟨more, whole⟩ := inside
      obtain ⟨part, later, split, rfl, _⟩ := List.map_eq_append_iff.mp whole.symm
      refine ⟨ops, part, cut.order, reached, Or.inr ⟨r, next, ⟨later, split.symm⟩, ?_⟩⟩
      rintro rfl
      exact short rfl
    | _ =>
      rw [nothing inside short] at reached
      exact ⟨ops, [], cut.order, by simpa using reached, Or.inl rfl⟩

variable {done : List (Op β)} {ops : List (Op α)} {part : List β}

theorem tidy_of_before {more : List (Op α)}
    (early : ops ++ more <+: logging limits (extent line) chars (fun r => [r]) fresh records) :
    AllTidy limits (extent line) chars fresh ops ∧
      AllTidy limits (extent line) chars (after fresh ops) more := by
  have alone (i : ℕ) (later : 0 < i) : (fresh : Dir α) i = none := by
    rw [fresh, Function.update_of_ne (by omega)]
  have ready : Ready limits (fresh : Dir α) :=
    ⟨fun i far => alone i (by omega), Or.inr alone⟩
  have base : (fresh : Dir α) 0 = some [] := by rw [fresh, Function.update_self]
  have all := @logging_tidy α limits fresh (extent line) chars [] rfl ready base records
  obtain ⟨later, whole⟩ := early
  rw [← whole, allTidy_append, allTidy_append] at all
  exact all.1

theorem appended_of_before
    (early : ops <+: logging limits (extent line) chars (fun r => [r]) fresh records) :
    appended ops <+: records := by
  obtain ⟨later, whole⟩ := early
  have all := @appended_logging α α limits (extent line) chars (fun r => [r]) fresh records
  rw [← whole, appended_append, List.flatMap_singleton'] at all
  exact ⟨appended later, all⟩

namespace Broken

theorem kept (h : Broken limits chars line records done ops part) {longest : ℕ}
    (short : ∀ r ∈ records, (line r).length ≤ longest) :
    Kept limits (extent line) (limits.maxBytes + longest) (appended ops) (after fresh ops) := by
  have whole : ops ++ [] <+: logging limits (extent line) chars (fun r => [r]) fresh records := by
    simpa using h.early
  refine (kept_fresh _).after rfl (tidy_of_before whole).1 fun r made base room => ?_
  have small := short r ((appended_of_before h.early).subset made)
  rw [extent_concat]
  have positive := limits.maxBytes_pos
  omega

theorem appended_done (h : Broken limits chars line records done ops part) :
    appended done = (appended ops).flatMap line ++ part := by
  have each (ops : List (Op α)) :
      appended (ops.flatMap (written line)) = (appended ops).flatMap line := by
    induction ops with
    | nil => rfl
    | cons op ops ih =>
      have split : appended (op :: ops) = appended [op] ++ appended ops := appended_append [op] ops
      rw [List.flatMap_cons, appended_append, ih, split, List.flatMap_append]
      congr 1
      cases op with
      | append r => simp [written, appended]
      | _ => rfl
  rw [h.reached, appended_append, each, appended_items]

/-- The base file has the part of the line that is written. -/
theorem files (h : Broken limits chars line records done ops part) :
    after fresh done =
      Function.update (expand line (after fresh ops)) 0
        ((expand line (after fresh ops) 0).map (· ++ part)) := by
  rw [h.reached, after_append, ← expand_fresh, after_expand, after_items]

/-- If a part of a line is written, the base file is there and has room for the line. -/
theorem writing (h : Broken limits chars line records done ops part) (writes : part ≠ []) :
    ∃ r base, appended ops ++ [r] <+: records ∧ part <+: line r ∧ part ≠ line r ∧
      after fresh ops 0 = some base ∧
      (0 < limits.backupCount →
        extent line base = 0 ∨ extent line base + chars r < limits.maxBytes) := by
  obtain ⟨r, next, inside, short⟩ := h.less.resolve_left writes
  obtain ⟨base, there, room⟩ := (tidy_of_before next).2.1
  have longer := appended_of_before next
  rw [appended_append] at longer
  exact ⟨r, base, longer, inside, short, there, room⟩

theorem readBack_done (h : Broken limits chars line records done ops part) (n : ℕ) :
    readBack (after fresh done) n = (readBack (after fresh ops) n).flatMap line ++ part := by
  rw [h.reached, after_append, ← expand_fresh, after_expand, ← readBack_expand]
  by_cases writes : part = []
  · rw [writes, List.map_nil, after_nil, List.append_nil]
  · obtain ⟨_, base, _, _, _, there, _⟩ := h.writing writes
    have open_ : expand line (after fresh ops) 0 = some (base.flatMap line) := by
      simp [expand, there]
    rw [readBack_items open_]

/-- Every file keeps within the limit, but for one line. -/
theorem held_le (h : Broken limits chars line records done ops part) {longest : ℕ}
    (short : ∀ r ∈ records, (line r).length ≤ longest) (many : 0 < limits.backupCount) {i : ℕ}
    {held : List β} (there : after fresh done i = some held) :
    held.length ≤ limits.maxBytes + longest := by
  have kept := h.kept short
  rw [h.files] at there
  by_cases first : i = 0 ∧ part ≠ []
  · obtain ⟨rfl, writes⟩ := first
    obtain ⟨r, base, next, inside, _, open_, room⟩ := h.writing writes
    rw [Function.update_self, expand, open_] at there
    cases there
    have small := short r (next.subset (by simp))
    have less := inside.length_le
    have positive := limits.maxBytes_pos
    have fits := room many
    have size : (base.flatMap line ++ part).length = extent line base + part.length :=
      List.length_append
    change (base.flatMap line ++ part).length ≤ _
    omega
  · have plain : expand line (after fresh ops) i = some held := by
      by_cases zero : i = 0
      · have none : part = [] := by
          by_contra writes
          exact first ⟨zero, writes⟩
        rw [zero, Function.update_self, none] at there
        rw [zero, ← there]
        simp
      · rwa [Function.update_of_ne zero] at there
    obtain ⟨records, open_, rfl⟩ := Option.map_eq_some_iff.mp plain
    exact kept.fits many i records open_

end Broken

/-- Wherever logging breaks off, the files read from the oldest on hold the end of what was
logged: of the lines that are written whole all but some of the first, and what is written of
the next one. -/
theorem cut_contents (nonempty : ∀ r ∈ records, line r ≠ [])
    (early : done <+: logging limits List.length chars line fresh records) :
    ∃ lost kept part, Cut line records (appended done) (lost ++ kept) ∧
      (lost ++ kept ≠ [] → kept ≠ []) ∧ appended done = (lost ++ kept).flatMap line ++ part ∧
      readBack (after fresh done) limits.backupCount = kept.flatMap line ++ part := by
  obtain ⟨ops, part, broken⟩ := exists_broken early
  have short : ∀ r ∈ records, (line r).length ≤ (records.map fun r => (line r).length).sum := by
    intro r member
    exact List.le_sum_of_mem (List.mem_map.mpr ⟨r, member, rfl⟩)
  have kept := broken.kept short
  obtain ⟨lost, order⟩ := kept.order
  have reached := broken.appended_done
  refine ⟨lost, readBack (after fresh ops) limits.backupCount, part, ⟨?_, ?_, ?_⟩, ?_, ?_,
    broken.readBack_done _⟩
  · exact order ▸ appended_of_before broken.early
  · rw [← order, reached]
    exact List.prefix_append _ _
  · intro a next whole
    rw [← order] at next whole
    rw [reached, List.flatMap_append, List.flatMap_singleton,
      List.prefix_append_right_inj] at whole
    by_cases writes : part = []
    · rw [writes, List.prefix_nil] at whole
      exact nonempty a (next.subset (by simp)) whole
    · obtain ⟨r, _, next', inside, less, _⟩ := broken.writing writes
      have same := List.prefix_of_prefix_length_le next next' (by simp)
      rw [List.prefix_append_right_inj, List.cons_prefix_cons] at same
      rw [same.1] at whole
      exact less (inside.eq_of_length (le_antisymm inside.length_le whole.length_le))
  · rw [← order]
    exact kept.latest
  · rw [← order, reached]

theorem cut_bounded {longest : ℕ} (short : ∀ r ∈ records, (line r).length ≤ longest)
    (early : done <+: logging limits List.length chars line fresh records) :
    (∀ i, limits.backupCount < i → after fresh done i = none) ∧
      (0 < limits.backupCount → ∀ i held, after fresh done i = some held →
        held.length ≤ limits.maxBytes + longest) := by
  obtain ⟨ops, part, broken⟩ := exists_broken early
  refine ⟨fun i far => ?_, fun many i held there => broken.held_le short many there⟩
  rw [broken.files, Function.update_of_ne (by omega), expand, (broken.kept short).beyond i far]
  rfl

end Cuts

end EdgeVoice.RotatingLog
