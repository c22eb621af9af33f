import EdgeVoice.StepSystem

/-! Frames on a character stream that may break off anywhere. A reader is a machine that makes
an item's message on the last character of its frame, and is then as it was at the start. -/

namespace EdgeVoice.Framing
open StepSystem

variable {S I O α : Type*}

/-- How a reader at rest takes the frame of one item. -/
structure Framed (step : S → I → S × List O) (idle : S) (frame : List I) (message : O) : Prop where
  whole : outputs step idle frame = (idle, [message])
  part : ∀ cut, cut <+: frame → cut ≠ frame → (outputs step idle cut).2 = []

variable {step : S → I → S × List O} {idle : S} {frame : α → List I} {message : α → O}
variable {items : List α} {cut : List I}

theorem Framed.nonempty {frame : List I} {message : O} (h : Framed step idle frame message) :
    frame ≠ [] := by
  rintro rfl
  have made := congrArg Prod.snd h.whole
  cases made

theorem Framed.silent {frame came : List I} {message : O} {i : I}
    (h : Framed step idle frame message) (inside : came ++ [i] <+: frame) :
    (outputs step idle came).2 = [] := by
  refine h.part came ((List.prefix_append came [i]).trans inside) fun whole => ?_
  have longer := inside.length_le
  rw [← whole, List.length_append, List.length_singleton] at longer
  omega

/-- The last character of a frame makes the message. -/
theorem Framed.last {came : List I} {message : O} {i : I}
    (h : Framed step idle (came ++ [i]) message) :
    step (outputs step idle came).1 i = (idle, [message]) := by
  have whole := h.whole
  rw [outputs_append, h.silent List.prefix_rfl] at whole
  simpa using whole

/-- No other one does. -/
theorem Framed.inside {frame came : List I} {message : O} {i : I}
    (h : Framed step idle frame message) (early : came ++ [i] <+: frame)
    (short : came ++ [i] ≠ frame) :
    step (outputs step idle came).1 i = ((outputs step idle (came ++ [i])).1, []) := by
  have none := h.part _ early short
  rw [outputs_append, h.silent early] at none ⊢
  simp only [outputs_cons, outputs_nil, List.append_nil, List.nil_append] at none ⊢
  exact Prod.ext rfl none

theorem outputs_mono {is js : List I} (early : is <+: js) (s : S) :
    (outputs step s is).2 <+: (outputs step s js).2 := by
  obtain ⟨more, rfl⟩ := early
  rw [outputs_append]
  exact List.prefix_append _ _

/-- The message is made on the last character if none is made before it. -/
theorem Framed.of_last {body : List I} {last : I} {message : O}
    (silent : (outputs step idle body).2 = [])
    (whole : outputs step idle (body ++ [last]) = (idle, [message])) :
    Framed step idle (body ++ [last]) message := by
  refine ⟨whole, fun cut early short => ?_⟩
  have inside := (List.prefix_concat_iff.mp early).resolve_left short
  have before := @outputs_mono _ _ _ step _ _ inside idle
  rw [silent] at before
  exact List.prefix_nil.mp before

theorem outputs_frames (framed : ∀ a ∈ items, Framed step idle (frame a) (message a)) :
    outputs step idle (items.flatMap frame) = (idle, items.map message) := by
  induction items with
  | nil => rfl
  | cons a items ih =>
    have first := (framed a List.mem_cons_self).whole
    have rest := ih fun b member => framed b (List.mem_cons_of_mem _ member)
    rw [List.flatMap_cons, outputs_append, first, rest]
    rfl

/-- The part of the stream that came: the frames of the first items, and a part of the next. -/
structure Cut (frame : α → List I) (all : List α) (cut : List I) (arrived : List α) : Prop where
  order : arrived <+: all
  frames : arrived.flatMap frame <+: cut
  part : ∀ a, (arrived ++ [a]) <+: all → ¬(arrived ++ [a]).flatMap frame <+: cut

theorem exists_cut (frame : α → List I) (items : List α) (cut : List I) :
    ∃ arrived, Cut frame items cut arrived := by
  induction items generalizing cut with
  | nil =>
    refine ⟨[], List.prefix_rfl, List.nil_prefix, fun a longer => ?_⟩
    simp at longer
  | cons a items ih =>
    by_cases came : frame a <+: cut
    · obtain ⟨rest, rfl⟩ := came
      obtain ⟨arrived, more⟩ := ih rest
      refine ⟨a :: arrived, (List.cons_prefix_cons).mpr ⟨rfl, more.order⟩, ?_, ?_⟩
      · rw [List.flatMap_cons]
        exact (List.prefix_append_right_inj _).mpr more.frames
      · intro b longer
        rw [List.cons_append, List.cons_prefix_cons] at longer
        rw [List.cons_append, List.flatMap_cons, List.prefix_append_right_inj]
        exact more.part b longer.2
    · refine ⟨[], List.nil_prefix, List.nil_prefix, fun b longer => ?_⟩
      rw [List.nil_append, List.cons_prefix_cons] at longer
      rw [List.nil_append, List.flatMap_singleton, longer.1]
      exact came

/-- What is left of such a stream is less than the next frame. -/
theorem Cut.rest {arrived : List α} (h : Cut frame items cut arrived)
    (early : cut <+: items.flatMap frame) :
    ∃ rest, cut = arrived.flatMap frame ++ rest ∧
      (rest = [] ∨ ∃ a, arrived ++ [a] <+: items ∧ rest <+: frame a ∧ rest ≠ frame a) := by
  obtain ⟨later, rfl⟩ := h.order
  obtain ⟨rest, rfl⟩ := h.frames
  refine ⟨rest, rfl, ?_⟩
  rw [List.flatMap_append, List.prefix_append_right_inj] at early
  cases later with
  | nil => exact Or.inl (List.prefix_nil.mp early)
  | cons a later =>
    have next : arrived ++ [a] <+: arrived ++ a :: later :=
      (List.prefix_append_right_inj _).mpr ((List.cons_prefix_cons).mpr ⟨rfl, List.nil_prefix⟩)
    have short : ¬frame a <+: rest := by
      intro whole
      refine h.part a next ?_
      rw [List.flatMap_append, List.flatMap_singleton, List.prefix_append_right_inj]
      exact whole
    rw [List.flatMap_cons] at early
    have inside : rest <+: frame a :=
      (List.prefix_or_prefix_of_prefix early (List.prefix_append _ _)).resolve_right short
    exact Or.inr ⟨a, next, inside, fun same => short (same ▸ List.prefix_rfl)⟩

/-- A reader says nothing about what is left. -/
theorem Cut.quiet (framed : ∀ a ∈ items, Framed step idle (frame a) (message a))
    (early : cut <+: items.flatMap frame) {arrived : List α} (h : Cut frame items cut arrived)
    {rest : List I} (left : cut = arrived.flatMap frame ++ rest) :
    (outputs step idle rest).2 = [] := by
  obtain ⟨rest', split, less⟩ := h.rest early
  rw [split, List.append_cancel_left_eq] at left
  rw [← left]
  rcases less with rfl | ⟨a, next, inside, short⟩
  · rw [outputs_nil]
  · exact (framed a (next.subset (by simp))).part rest' inside short

/-- Of a stream that breaks off the reader gets the items whose frames came whole, in order,
and nothing else. -/
theorem cut_messages (framed : ∀ a ∈ items, Framed step idle (frame a) (message a))
    (early : cut <+: items.flatMap frame) {arrived : List α} (h : Cut frame items cut arrived) :
    (outputs step idle cut).2 = arrived.map message := by
  obtain ⟨rest, left⟩ := h.frames
  have came := outputs_frames fun a member => framed a (h.order.subset member)
  rw [← left, outputs_append, came, h.quiet framed early left.symm, List.append_nil]

end EdgeVoice.Framing
