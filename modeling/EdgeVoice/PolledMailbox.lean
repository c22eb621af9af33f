import EdgeVoice.StepSystem

/-! A queue with one reader that polls it with a timed get. Items are readable as soon
as they are put, or, in a queue between processes, once a feeder has moved them to the
pipe. A reader that leaves for good takes at most the item of the get it is in, so
whether everything is taken is settled when it is told to leave. -/

namespace EdgeVoice.PolledMailbox

/-- The queue, and the logs of what was put and what was taken. -/
structure Mailbox (α : Type*) where
  feeder : List α := []
  ready : List α := []
  put : List α := []
  taken : List α := []
deriving DecidableEq

namespace Mailbox

variable {α : Type*}

def unread (box : Mailbox α) : List α := box.ready ++ box.feeder

/-- A put into the pipe, or into the feeder's buffer. -/
def send (buffered : Bool) (box : Mailbox α) (item : α) : Mailbox α :=
  if buffered then { box with feeder := box.feeder ++ [item], put := box.put ++ [item] }
  else { box with ready := box.ready ++ [item], put := box.put ++ [item] }

def transfer (box : Mailbox α) : Option (Mailbox α) :=
  match box.feeder with
  | [] => none
  | item :: rest => some { box with feeder := rest, ready := box.ready ++ [item] }

/-- A get that returns. -/
def take (box : Mailbox α) : Option (α × Mailbox α) :=
  match box.ready with
  | [] => none
  | item :: rest => some (item, { box with ready := rest, taken := box.taken ++ [item] })

/-- Nothing was lost or reordered. -/
def Conserves (box : Mailbox α) : Prop := box.put = box.taken ++ box.unread

/-- Everything is taken even if the reader, which is `reading` or not, starts no other
get: nothing is left, or one item is, readable by the get it is in. -/
def Settled (reading : Prop) (box : Mailbox α) : Prop :=
  box.unread = [] ∨ (reading ∧ box.feeder = [] ∧ box.ready.length = 1)

instance [DecidableEq α] (reading : Prop) [Decidable reading] (box : Mailbox α) :
    Decidable (Settled reading box) := by
  unfold Settled
  infer_instance

variable {box box' : Mailbox α} {item : α} {reading : Prop}

theorem send_unread {buffered : Bool} (direct : buffered = false → box.feeder = []) :
    (box.send buffered item).unread = box.unread ++ [item] := by
  cases buffered with
  | true => simp [send, unread]
  | false => simp [send, unread, direct rfl]

theorem Conserves.send {buffered : Bool} (h : box.Conserves)
    (direct : buffered = false → box.feeder = []) : (box.send buffered item).Conserves := by
  have put : (box.send buffered item).put = box.put ++ [item] := by cases buffered <;> rfl
  have taken : (box.send buffered item).taken = box.taken := by cases buffered <;> rfl
  rw [Conserves, put, taken, send_unread direct, h, List.append_assoc]

theorem transfer_unread (moved : box.transfer = some box') :
    box'.unread = box.unread ∧ box'.put = box.put ∧ box'.taken = box.taken := by
  unfold transfer at moved
  split at moved <;> cases moved
  rename_i rest waiting
  simp [unread, waiting]

theorem Conserves.transfer (h : box.Conserves) (moved : box.transfer = some box') :
    box'.Conserves := by
  obtain ⟨unread, put, taken⟩ := transfer_unread moved
  rw [Conserves, put, taken, unread, h]

theorem take_unread (got : box.take = some (item, box')) :
    box.unread = item :: box'.unread ∧ box'.put = box.put ∧ box'.taken = box.taken ++ [item] ∧
      box'.feeder = box.feeder := by
  unfold take at got
  split at got <;> cases got
  rename_i waiting
  simp [unread, waiting]

theorem Conserves.take (h : box.Conserves) (got : box.take = some (item, box')) :
    box'.Conserves := by
  obtain ⟨unread, put, taken, _⟩ := take_unread got
  rw [Conserves, put, taken, h, unread, List.append_assoc, List.singleton_append]

/-- All was taken exactly when nothing is left. -/
theorem Conserves.taken_iff (h : box.Conserves) : box.taken = box.put ↔ box.unread = [] := by
  rw [h]
  simp

theorem settled_outside (outside : ¬reading) : box.Settled reading ↔ box.unread = [] := by
  simp [Settled, outside]

theorem Settled.transfer (h : box.Settled reading) (moved : box.transfer = some box') :
    box'.Settled reading := by
  rcases h with empty | one
  · left
    rw [(transfer_unread moved).1, empty]
  · simp [Mailbox.transfer, one.2.1] at moved

/-- The get in progress was the last one needed. -/
theorem Settled.take (h : box.Settled reading) (got : box.take = some (item, box')) :
    box'.unread = [] := by
  have unread := (take_unread got).1
  rcases h with empty | one
  · rw [empty] at unread
    cases unread
  · have length : box.unread.length = 1 := by simp [Mailbox.unread, one.2.1, one.2.2]
    rw [unread, List.length_cons] at length
    exact List.length_eq_zero_iff.mp (by omega)

/-- A get that gives up found nothing to take. -/
theorem Settled.expire (h : box.Settled reading) (empty : box.ready = []) : box.unread = [] := by
  rcases h with nothing | one
  · exact nothing
  · simp [empty] at one

/-- Without a feeder a get decides nothing that was not settled before. -/
theorem settled_take_iff (direct : box.feeder = []) (inside : reading)
    (got : box.take = some (item, box')) : box'.unread = [] ↔ box.Settled reading := by
  refine ⟨fun empty => ?_, fun h => h.take got⟩
  have unread := (take_unread got).1
  rw [empty, Mailbox.unread, direct, List.append_nil] at unread
  exact Or.inr ⟨inside, direct, by simp [unread]⟩

end Mailbox

end EdgeVoice.PolledMailbox
