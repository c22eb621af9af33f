import Mathlib

/-! A budget of events for every closed window of time of one length. A log of the events
is pruned at its front whenever a new one is considered; if the times never go back, what
is left is what the window before the present holds. Nothing here is specific to a
program. -/

namespace EdgeVoice.SlidingWindow

variable {α : Type*} [AddCommGroup α] [LinearOrder α]

/-- The times in the closed window of length `w` from `a`. -/
def within (a w : α) (times : List α) : List α := times.filter fun t => a ≤ t ∧ t ≤ a + w

/-- The log pruned at its front. -/
def recent (now w : α) (times : List α) : List α := times.dropWhile fun t => w < now - t

/-- Every closed window of length `w` holds at most `n` of the times. -/
def Bounded (n : ℕ) (w : α) (times : List α) : Prop := ∀ a, (within a w times).length ≤ n

/-- `kept` is all of the history that the window before `now`, or a later one, can see. -/
def Log (now w : α) (kept times : List α) : Prop :=
  ∃ old, times = old ++ kept ∧ ∀ t ∈ old, w < now - t

variable {now later w : α} {kept times : List α}

theorem bounded_nil (n : ℕ) (w : α) : Bounded n w ([] : List α) := fun a => by simp [within]

theorem Log.nil (now w : α) : Log now w [] [] := ⟨[], rfl, by simp⟩

theorem Log.append (h : Log now w kept times) (t : α) : Log now w (kept ++ [t]) (times ++ [t]) := by
  obtain ⟨old, whole, past⟩ := h
  exact ⟨old, by rw [whole, List.append_assoc], past⟩

variable [IsOrderedAddMonoid α]

theorem Log.mono (h : Log now w kept times) (le : now ≤ later) : Log later w kept times := by
  obtain ⟨old, whole, past⟩ := h
  exact ⟨old, whole, fun t member => (past t member).trans_le (sub_le_sub_right le t)⟩

theorem Log.prune (h : Log now w kept times) (le : now ≤ later) :
    Log later w (recent later w kept) times := by
  obtain ⟨old, whole, past⟩ := h.mono le
  refine ⟨old ++ kept.takeWhile fun t => w < later - t, ?_, ?_⟩
  · rw [whole, List.append_assoc, recent, List.takeWhile_append_dropWhile]
  · intro t member
    rcases List.mem_append.mp member with before | front
    · exact past t before
    · simpa using List.mem_takeWhile_imp front

/-- Of a sorted log up to now the pruned one is the window before now. -/
theorem recent_eq_within (sorted : times.Pairwise (· ≤ ·)) (past : ∀ t ∈ times, t ≤ now) :
    recent now w times = within (now - w) w times := by
  induction times with
  | nil => rfl
  | cons t times ih =>
    obtain ⟨first, sorted⟩ := List.pairwise_cons.mp sorted
    have past_rest : ∀ u ∈ times, u ≤ now := fun u member => past u (List.mem_cons_of_mem t member)
    by_cases old : w < now - t
    · have out : ¬(now - w ≤ t ∧ t ≤ now - w + w) := by
        intro inside
        exact absurd (sub_le_comm.mp inside.1) (not_le.mpr old)
      rw [recent, List.dropWhile_cons_of_pos (by simpa using old), within,
        List.filter_cons_of_neg (by simpa using out)]
      exact ih sorted past_rest
    · have all : ∀ u ∈ t :: times, now - w ≤ u ∧ u ≤ now - w + w := by
        intro u member
        have least : t ≤ u := by
          rcases List.mem_cons.mp member with rfl | rest
          · exact le_refl u
          · exact first u rest
        rw [sub_add_cancel]
        exact ⟨(sub_le_comm.mp (not_lt.mp old)).trans least, past u member⟩
      rw [recent, List.dropWhile_cons_of_neg (by simpa using old), within, eq_comm,
        List.filter_eq_self]
      exact fun u member => decide_eq_true (all u member)

/-- The pruned log holds what the whole history has in the window before now. -/
theorem Log.recent_eq (h : Log now w kept times) (sorted : times.Pairwise (· ≤ ·))
    (le : now ≤ later) (past : ∀ t ∈ times, t ≤ later) :
    recent later w kept = within (later - w) w times := by
  obtain ⟨old, rfl, before⟩ := h.mono le
  have gone : within (later - w) w old = [] := by
    refine List.filter_eq_nil_iff.mpr fun t member => ?_
    have out : ¬later - w ≤ t := fun inside =>
      absurd (sub_le_comm.mp inside) (not_le.mpr (before t member))
    simp [out]
  rw [recent_eq_within (List.pairwise_append.mp sorted).2.1
    fun t member => past t (List.mem_append_right old member)]
  have split : within (later - w) w (old ++ kept) =
      within (later - w) w old ++ within (later - w) w kept := List.filter_append old kept
  rw [split, gone, List.nil_append]

omit [IsOrderedAddMonoid α] in
/-- Pruning takes nothing exactly when the oldest entry is in the window. -/
theorem recent_length_iff :
    times.length = (recent now w times).length ↔ ∀ oldest ∈ times.head?, now - oldest ≤ w := by
  cases times with
  | nil => simp [recent]
  | cons t times =>
    by_cases old : w < now - t
    · have fewer : (recent now w (t :: times)).length ≤ times.length := by
        rw [recent, List.dropWhile_cons_of_pos (by simpa using old)]
        exact (List.dropWhile_sublist _).length_le
      refine iff_of_false ?_ ?_
      · rw [List.length_cons]
        omega
      · simpa using old
    · rw [recent, List.dropWhile_cons_of_neg (by simpa using old)]
      simpa using old

/-- A new event that has room in the window before it has room in every window: one that
holds it looks no further back. -/
theorem Bounded.append {n : ℕ} (h : Bounded n w times) (past : ∀ t ∈ times, t ≤ now)
    (room : (within (now - w) w times).length < n) : Bounded n w (times ++ [now]) := by
  intro a
  have split : within a w (times ++ [now]) = within a w times ++ within a w [now] :=
    List.filter_append times [now]
  rw [split, List.length_append]
  by_cases inside : a ≤ now ∧ now ≤ a + w
  · have fewer : (within a w times).length ≤ (within (now - w) w times).length := by
      unfold within
      rw [← List.countP_eq_length_filter, ← List.countP_eq_length_filter]
      refine List.countP_mono_left fun t member held => ?_
      simp only [decide_eq_true_eq] at held ⊢
      rw [sub_add_cancel]
      exact ⟨(sub_le_iff_le_add.mpr inside.2).trans held.1, past t member⟩
    have one : (within a w [now]).length ≤ 1 := List.length_filter_le _ _
    omega
  · have none_new : within a w [now] = [] :=
      List.filter_eq_nil_iff.mpr fun t member => by
        rw [List.mem_singleton.mp member]
        simpa using inside
    rw [none_new]
    exact h a

end EdgeVoice.SlidingWindow
