import Mathlib

/-! Runs of a labelled step function and of a machine with outputs.
A step is a partial function of a label, so a label list is one interleaving:
quantifying over label lists quantifies over every interleaving. Outputs are
ordered lists; nothing here is specific to a program. -/

namespace EdgeVoice.StepSystem

section Labelled

variable {S E : Type*} (step : S → E → Option S)

/-- The state a label list leads to, if every label is enabled in its turn. -/
def run (s : S) (labels : List E) : Option S := labels.foldlM step s

@[simp] theorem run_nil (s : S) : run step s [] = some s := rfl

@[simp] theorem run_cons (s : S) (e : E) (es : List E) :
    run step s (e :: es) = (step s e).bind fun t => run step t es := rfl

theorem run_append (s : S) (es fs : List E) :
    run step s (es ++ fs) = (run step s es).bind fun t => run step t fs := by
  simp [run, List.foldlM_append]

theorem run_concat (s t : S) (es : List E) (e : E) :
    run step s (es ++ [e]) = some t ↔ ∃ m, run step s es = some m ∧ step m e = some t := by
  simp [run_append, Option.bind_eq_some_iff]

/-- An invariant of states and of the labels that led to them. -/
theorem run_history {I : List E → S → Prop} {s t : S} {es : List E}
    (initial : I [] s)
    (preserved : ∀ past m e m', I past m → step m e = some m' → I (past ++ [e]) m')
    (h : run step s es = some t) : I es t := by
  induction es using List.reverseRecOn generalizing t with
  | nil =>
    cases h
    exact initial
  | append_singleton es e ih =>
    obtain ⟨m, before, last⟩ := (run_concat step s t es e).mp h
    exact preserved es m e t (ih before) last

theorem run_invariant {I : S → Prop} {s t : S} {es : List E} (initial : I s)
    (preserved : ∀ m e m', I m → step m e = some m' → I m')
    (h : run step s es = some t) : I t :=
  run_history step (I := fun _ => I) initial (fun _ => preserved) h

/-- Between a state without a property and one with it lies the step that brings it. -/
theorem run_turns {P : S → Prop} {s t : S} {es : List E} (before : ¬P s) (after : P t)
    (h : run step s es = some t) :
    ∃ past e later m m', es = past ++ e :: later ∧ run step s past = some m ∧
      step m e = some m' ∧ run step m' later = some t ∧ ¬P m ∧ P m' := by
  induction es generalizing s with
  | nil =>
    cases h
    exact absurd after before
  | cons e es ih =>
    rw [run_cons, Option.bind_eq_some_iff] at h
    obtain ⟨m, stepped, onward⟩ := h
    by_cases turned : P m
    · exact ⟨[], e, es, s, m, rfl, rfl, stepped, onward, before, turned⟩
    · obtain ⟨past, f, later, n, n', whole, reached, rest⟩ := ih turned onward
      exact ⟨e :: past, f, later, n, n', by rw [whole, List.cons_append],
        by simp [stepped, reached], rest⟩

/-- Every label of the run meets `ok` in the state in which it fires. -/
def Along (ok : S → E → Prop) : S → List E → Prop
  | _, [] => True
  | s, e :: es => ok s e ∧ ∀ t, step s e = some t → Along ok t es

def decideAlong (ok : S → E → Prop) [∀ s e, Decidable (ok s e)] :
    (es : List E) → (s : S) → Decidable (Along step ok s es)
  | [], _ => isTrue trivial
  | e :: es, s =>
    match next : step s e with
    | none => decidable_of_iff (ok s e) (by simp [Along, next])
    | some t =>
      have := decideAlong ok es t
      decidable_of_iff (ok s e ∧ Along step ok t es) (by simp [Along, next])

instance (ok : S → E → Prop) [∀ s e, Decidable (ok s e)] (s : S) (es : List E) :
    Decidable (Along step ok s es) := decideAlong step ok es s

theorem along_append (ok : S → E → Prop) (s : S) (es fs : List E) :
    Along step ok s (es ++ fs) ↔
      Along step ok s es ∧ ∀ t, run step s es = some t → Along step ok t fs := by
  induction es generalizing s with
  | nil => simp [Along]
  | cons e es ih =>
    simp only [List.cons_append, Along, ih, run_cons, and_assoc]
    refine and_congr_right fun _ => ?_
    cases hs : step s e with
    | none => simp
    | some m => simp

/-- The history rule for runs whose labels all meet a condition. -/
theorem run_history_along {ok : S → E → Prop} {I : List E → S → Prop} {s t : S} {es : List E}
    (initial : I [] s)
    (preserved : ∀ past m e m', I past m → ok m e → step m e = some m' → I (past ++ [e]) m')
    (met : Along step ok s es) (h : run step s es = some t) : I es t := by
  induction es using List.reverseRecOn generalizing t with
  | nil =>
    cases h
    exact initial
  | append_singleton es e ih =>
    obtain ⟨m, before, last⟩ := (run_concat step s t es e).mp h
    obtain ⟨metBefore, metLast⟩ := (along_append step ok s es [e]).mp met
    exact preserved es m e t (ih metBefore before) (metLast m before).1 last

theorem run_invariant_along {ok : S → E → Prop} {I : S → Prop} {s t : S} {es : List E}
    (initial : I s) (preserved : ∀ m e m', I m → ok m e → step m e = some m' → I m')
    (met : Along step ok s es) (h : run step s es = some t) : I t :=
  run_history_along step (I := fun _ => I) initial (fun _ => preserved) met h

/-- A run that does not meet a condition throughout has a first step that breaks it. -/
theorem run_breaks {ok : S → E → Prop} {s t : S} {es : List E} (broken : ¬Along step ok s es)
    (h : run step s es = some t) :
    ∃ past e later m m', es = past ++ e :: later ∧ Along step ok s past ∧
      run step s past = some m ∧ ¬ok m e ∧ step m e = some m' ∧ run step m' later = some t := by
  induction es generalizing s with
  | nil => exact absurd trivial broken
  | cons e es ih =>
    rw [run_cons, Option.bind_eq_some_iff] at h
    obtain ⟨m, stepped, onward⟩ := h
    by_cases now : ok s e
    · have later : ¬Along step ok m es := by
        intro met
        refine broken ⟨now, fun t next => ?_⟩
        rw [stepped] at next
        cases next
        exact met
      obtain ⟨past, f, rest, n, n', whole, met, reached, bad, taken, ends⟩ := ih later onward
      refine ⟨e :: past, f, rest, n, n', by rw [whole, List.cons_append], ⟨now, ?_⟩,
        by simp [stepped, reached], bad, taken, ends⟩
      intro t next
      rw [stepped] at next
      cases next
      exact met
    · exact ⟨[], e, es, s, m, rfl, trivial, rfl, now, stepped, onward⟩

/-- A goal is reached by labels of one kind where some such label brings every state that
is not there yet closer. -/
theorem run_descends {ok : E → Prop} {P goal : S → Prop} (distance : S → ℕ)
    (closer : ∀ s, P s → ¬goal s →
      ∃ e t, ok e ∧ step s e = some t ∧ P t ∧ distance t < distance s)
    {s : S} (h : P s) : ∃ es t, (∀ e ∈ es, ok e) ∧ run step s es = some t ∧ P t ∧ goal t := by
  induction hd : distance s using Nat.strong_induction_on generalizing s with
  | _ d ih =>
    by_cases there : goal s
    · exact ⟨[], s, by simp, rfl, h, there⟩
    · obtain ⟨e, m, kind, stepped, still, less⟩ := closer s h there
      obtain ⟨es, t, kinds, onward, arrived⟩ := ih (distance m) (hd ▸ less) still rfl
      refine ⟨e :: es, t, ?_, by simp [stepped, onward], arrived⟩
      intro f mem
      rcases List.mem_cons.mp mem with rfl | later
      · exact kind
      · exact kinds f later

end Labelled

section Outputs

variable {S I O : Type*} (step : S → I → S × List O)

/-- A machine that answers every input with a list of outputs. -/
def outputs : S → List I → S × List O
  | s, [] => (s, [])
  | s, i :: is =>
    let now := step s i
    let later := outputs now.1 is
    (later.1, now.2 ++ later.2)

@[simp] theorem outputs_nil (s : S) : outputs step s [] = (s, []) := rfl

@[simp] theorem outputs_cons (s : S) (i : I) (is : List I) :
    outputs step s (i :: is) =
      ((outputs step (step s i).1 is).1, (step s i).2 ++ (outputs step (step s i).1 is).2) := rfl

theorem outputs_append (s : S) (is js : List I) :
    outputs step s (is ++ js) =
      ((outputs step (outputs step s is).1 js).1,
        (outputs step s is).2 ++ (outputs step (outputs step s is).1 js).2) := by
  induction is generalizing s with
  | nil => rfl
  | cons i is ih => simp [ih]

/-- An invariant of states, of the inputs read and of the outputs made so far. -/
theorem outputs_history {P : List I → List O → S → Prop} {s : S} (initial : P [] [] s)
    (preserved : ∀ is os m i, P is os m → P (is ++ [i]) (os ++ (step m i).2) (step m i).1)
    (is : List I) : P is (outputs step s is).2 (outputs step s is).1 := by
  induction is using List.reverseRecOn with
  | nil => exact initial
  | append_singleton is i ih =>
    simpa [outputs_append] using preserved is _ _ i ih

/-- What holds of each input and its past, input by input. -/
theorem forall_inputs_concat {P : List I → I → Prop} {is : List I} {i : I} :
    (∀ past j later, is ++ [i] = past ++ j :: later → P past j) ↔
      (∀ past j later, is = past ++ j :: later → P past j) ∧ P is i := by
  constructor
  · intro all
    exact ⟨fun past j later whole => all past j (later ++ [i]) (by simp [whole]), all is i [] rfl⟩
  · rintro ⟨before, now⟩ past j later whole
    cases later using List.reverseRecOn with
    | nil =>
      obtain ⟨rfl, same⟩ := List.append_inj' whole rfl
      cases same
      exact now
    | append_singleton later last =>
      rw [← List.cons_append, ← List.append_assoc] at whole
      exact before past j later (List.append_inj' whole rfl).1

/-- An invariant of states whose steps make only outputs of one kind. -/
theorem outputs_invariant {ok : I → Prop} {P : S → Prop} {Q : O → Prop}
    (preserved : ∀ s i, P s → ok i → P (step s i).1 ∧ ∀ o ∈ (step s i).2, Q o) {s : S}
    (initial : P s) {is : List I} (met : ∀ i ∈ is, ok i) :
    P (outputs step s is).1 ∧ ∀ o ∈ (outputs step s is).2, Q o := by
  induction is generalizing s with
  | nil => exact ⟨initial, by simp⟩
  | cons i is ih =>
    obtain ⟨onward, now⟩ := preserved s i initial (met i (by simp))
    obtain ⟨last, later⟩ := ih onward fun j member => met j (by simp [member])
    refine ⟨last, fun o member => ?_⟩
    rcases List.mem_append.mp member with made | made
    · exact now o made
    · exact later o made

/-- Every output was made by one of the inputs, in the state its past led to. -/
theorem mem_outputs_iff {s : S} {is : List I} {o : O} :
    o ∈ (outputs step s is).2 ↔
      ∃ past i later, is = past ++ i :: later ∧ o ∈ (step (outputs step s past).1 i).2 := by
  induction is generalizing s with
  | nil => simp
  | cons i is ih =>
    rw [outputs_cons, List.mem_append, ih]
    constructor
    · rintro (now | ⟨past, j, later, rfl, made⟩)
      · exact ⟨[], i, is, rfl, now⟩
      · exact ⟨i :: past, j, later, rfl, made⟩
    · rintro ⟨past, j, later, whole, made⟩
      cases past with
      | nil =>
        obtain ⟨rfl, rfl⟩ := List.cons_eq_cons.mp whole
        exact Or.inl made
      | cons first past =>
        obtain ⟨rfl, rfl⟩ := List.cons_eq_cons.mp whole
        exact Or.inr ⟨past, j, later, rfl, made⟩

/-- One machine simulated by another, each input by a list of inputs, with the
outputs equal as far as two observations tell. -/
theorem outputs_simulates {T J Q R : Type*} (step' : T → J → T × List Q)
    (Rel : S → T → Prop) (translate : I → List J) (see : O → List R) (see' : Q → List R)
    (simulates : ∀ s t i, Rel s t →
      Rel (step s i).1 (outputs step' t (translate i)).1 ∧
        (step s i).2.flatMap see = (outputs step' t (translate i)).2.flatMap see')
    {s : S} {t : T} (h : Rel s t) (is : List I) :
    Rel (outputs step s is).1 (outputs step' t (is.flatMap translate)).1 ∧
      (outputs step s is).2.flatMap see =
        (outputs step' t (is.flatMap translate)).2.flatMap see' := by
  induction is generalizing s t with
  | nil => exact ⟨h, rfl⟩
  | cons i is ih =>
    obtain ⟨related, seen⟩ := simulates s t i h
    obtain ⟨relatedLater, seenLater⟩ := ih related
    simp only [outputs_cons, List.flatMap_cons, outputs_append, List.flatMap_append]
    exact ⟨relatedLater, by rw [seen, seenLater]⟩

/-- No inputs tell the two states apart. -/
def Indistinguishable (s t : S) : Prop :=
  ∀ is, (outputs step s is).2 = (outputs step t is).2

variable {step} in
theorem Indistinguishable.symm {s t : S} (h : Indistinguishable step s t) :
    Indistinguishable step t s := fun is => (h is).symm

variable {step} in
theorem Indistinguishable.trans {s t u : S} (h : Indistinguishable step s t)
    (h' : Indistinguishable step t u) : Indistinguishable step s u :=
  fun is => (h is).trans (h' is)

variable {step} in
/-- They answer alike and stay so. -/
theorem Indistinguishable.next {s t : S} (h : Indistinguishable step s t) (i : I) :
    (step s i).2 = (step t i).2 ∧ Indistinguishable step (step s i).1 (step t i).1 := by
  have now : (step s i).2 = (step t i).2 := by simpa using h [i]
  refine ⟨now, fun is => ?_⟩
  have longer := h (i :: is)
  rw [outputs_cons, outputs_cons, now, List.append_cancel_left_eq] at longer
  exact longer

/-- A machine with one state per key, seen at one key: it runs like that key's own machine
on the inputs that concern the key. -/
theorem outputs_at {K T P : Type*} {step : (K → T) → I → (K → T) × List O} {k : K}
    {part : T → I → T × List P} {concerns : I → Bool} {see : List O → List P}
    (see_nil : see [] = []) (see_append : ∀ os ps, see (os ++ ps) = see os ++ see ps)
    (here : ∀ s i, ((step s i).1 k, see (step s i).2) =
      if concerns i then part (s k) i else (s k, []))
    (s : K → T) (is : List I) :
    ((outputs step s is).1 k, see (outputs step s is).2) =
      outputs part (s k) (is.filter concerns) := by
  induction is generalizing s with
  | nil => simp [see_nil]
  | cons i is ih =>
    have now := here s i
    have later := ih (step s i).1
    by_cases mine : concerns i = true
    · rw [if_pos mine] at now
      rw [List.filter_cons_of_pos mine, outputs_cons, outputs_cons, see_append, ← now, ← later]
    · rw [if_neg mine] at now
      have same := congrArg Prod.fst now
      have silent := congrArg Prod.snd now
      simp only at same silent
      rw [List.filter_cons_of_neg mine, outputs_cons, see_append, silent, ← same, ← later,
        List.nil_append]

end Outputs

end EdgeVoice.StepSystem
