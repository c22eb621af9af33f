import Mathlib

/-! Bounded queues whose puts give up when the queue stays full, and what a chain of them
leaves of a stream. Each stage's content, newest stage last, followed by what is still before
it, is a sublist of what came in: an item moves on, or is lost, and never overtakes. -/

namespace EdgeVoice.LossyQueue

variable {α β : Type*}

/-- A queue of size zero is never full. -/
def Full (maxsize : ℕ) (queue : List α) : Prop := 0 < maxsize ∧ maxsize ≤ queue.length

instance (maxsize : ℕ) (queue : List α) : Decidable (Full maxsize queue) :=
  inferInstanceAs (Decidable (_ ∧ _))

/-- A put that succeeds, which takes room, or gives up, which takes a full queue. -/
def offer (maxsize : ℕ) (gaveUp : Bool) (x : α) (queue : List α) : Option (List α) :=
  if Full maxsize queue then if gaveUp then some queue else none
  else if gaveUp then none else some (queue ++ [x])

variable {maxsize : ℕ} {gaveUp : Bool} {x : α} {queue queue' : List α}

theorem offer_cases (h : offer maxsize gaveUp x queue = some queue') :
    (queue' = queue ++ [x] ∧ ¬Full maxsize queue) ∨ (queue' = queue ∧ Full maxsize queue) := by
  unfold offer at h
  split at h
  · rename_i full
    split at h
    · cases h
      exact Or.inr ⟨rfl, full⟩
    · cases h
  · rename_i room
    split at h
    · cases h
    · cases h
      exact Or.inl ⟨rfl, room⟩

theorem offer_sublist (h : offer maxsize gaveUp x queue = some queue') :
    queue'.Sublist (queue ++ [x]) := by
  rcases offer_cases h with ⟨rfl, _⟩ | ⟨rfl, _⟩
  · exact List.Sublist.refl _
  · exact List.sublist_append_left _ _

theorem forall_offer {P : α → Prop} (h : offer maxsize gaveUp x queue = some queue')
    (all : ∀ y ∈ queue, P y) (new : P x) : ∀ y ∈ queue', P y := by
  intro y member
  rcases List.mem_append.mp ((offer_sublist h).subset member) with old | last
  · exact all y old
  · rw [List.mem_singleton.mp last]
    exact new

section Chains

/-- The part of a chain between what left it and what came in. -/
def Thins (gone : List β) (stages : List (List β)) (came : List β) : Prop :=
  (gone ++ stages.flatten).Sublist came

variable {gone came : List β} {stages before after : List (List β)}

/-- Neighbouring stages: what one gives the one before it takes, or loses. -/
theorem Thins.between {mid mid' : List (List β)} (h : Thins gone (before ++ mid ++ after) came)
    (less : mid'.flatten.Sublist mid.flatten) : Thins gone (before ++ mid' ++ after) came := by
  unfold Thins at h ⊢
  simp only [List.flatten_append, ← List.append_assoc] at h ⊢
  exact ((less.append_left _).append_right _).trans h

theorem Thins.leave {gone' a a' : List β} (h : Thins gone (a :: stages) came)
    (less : (gone' ++ a').Sublist (gone ++ a)) : Thins gone' (a' :: stages) came := by
  unfold Thins at h ⊢
  simp only [List.flatten_cons, ← List.append_assoc] at h ⊢
  exact (less.append_right _).trans h

theorem Thins.enter {a a' more : List β} (h : Thins gone (stages ++ [a]) came)
    (less : a'.Sublist (a ++ more)) : Thins gone (stages ++ [a']) (came ++ more) := by
  unfold Thins at h ⊢
  simp only [List.flatten_append, List.flatten_cons, List.flatten_nil, List.append_nil] at h ⊢
  rw [← List.append_assoc] at h ⊢
  refine (less.append_left _).trans ?_
  rw [← List.append_assoc]
  exact h.append_right _

end Chains

end EdgeVoice.LossyQueue
