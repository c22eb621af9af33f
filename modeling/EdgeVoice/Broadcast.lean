import EdgeVoice.StepSystem

/-! Publishing to whoever is subscribed at the moment. A publication is numbered and takes
a snapshot of the subscribers in one critical section; its publisher puts it on their queues
afterwards, one after another, before it publishes again. Publishers, subscriptions and puts
interleave freely. Nothing here is specific to a program. -/

namespace EdgeVoice.Broadcast
open StepSystem

/-- An item as one call publishes it. -/
structure Publication (α : Type*) where
  number : ℕ
  publisher : ℕ
  item : α
deriving DecidableEq

/-- Subscribers are numbered in order. `joined` is how much was published before, `pending`
what a publisher has still to put, and `live` and `dropped` are what was put and what was
not. -/
structure Topic (α : Type*) where
  subscribers : List ℕ := []
  count : ℕ := 0
  joined : ℕ → ℕ := fun _ => 0
  pending : ℕ → List (Publication α × ℕ) := fun _ => []
  published : List (Publication α) := []
  live : ℕ → List (Publication α) := fun _ => []
  dropped : ℕ → List (Publication α) := fun _ => []

/-- The set of subscribers is visited in any order. -/
inductive TopicEvent (α : Type*)
  | publish (publisher : ℕ) (item : α) (order : List ℕ)
  | settle (publisher : ℕ) (kept : Bool)
  | join
  | leave (q : ℕ)

variable {α : Type*}

namespace Topic

def next (t : Topic α) (publisher : ℕ) (item : α) : Publication α :=
  ⟨t.published.length, publisher, item⟩

def publish (publisher : ℕ) (item : α) (order : List ℕ) (t : Topic α) : Topic α :=
  { t with
    pending := Function.update t.pending publisher (order.map (t.next publisher item, ·))
    published := t.published ++ [t.next publisher item] }

/-- The first put a publisher owes is made, or given up. -/
def settle (publisher : ℕ) (kept : Bool) (t : Topic α) : Topic α :=
  match t.pending publisher with
  | [] => t
  | (x, q) :: rest =>
    { t with
      pending := Function.update t.pending publisher rest
      live := if kept then Function.update t.live q (t.live q ++ [x]) else t.live
      dropped := if kept then t.dropped else Function.update t.dropped q (t.dropped q ++ [x]) }

def join (t : Topic α) : Topic α :=
  { t with
    subscribers := t.subscribers ++ [t.count]
    joined := Function.update t.joined t.count t.published.length
    count := t.count + 1 }

def leave (q : ℕ) (t : Topic α) : Topic α := { t with subscribers := t.subscribers.erase q }

end Topic

def topicStep (t : Topic α) : TopicEvent α → Option (Topic α)
  | .publish publisher item order =>
    if t.pending publisher = [] ∧ order.Perm t.subscribers then
      some (t.publish publisher item order)
    else none
  | .settle publisher kept =>
    if t.pending publisher = [] then none else some (t.settle publisher kept)
  | .join => some t.join
  | .leave q => some (t.leave q)

variable {t t' : Topic α} {e : TopicEvent α} {p q : ℕ} {x : Publication α}

/-- What is published is numbered in order, and what is owed was published. -/
structure Inv (t : Topic α) : Prop where
  numbered : t.published.map Publication.number = List.range t.published.length
  members : t.subscribers.Nodup ∧ ∀ q ∈ t.subscribers, q < t.count
  joined : ∀ q, t.joined q ≤ t.published.length
  owed : ∀ p, ∀ a ∈ t.pending p, a.1 ∈ t.published ∧ a.1.publisher = p ∧ a.2 < t.count
  single : ∀ p, ∀ a ∈ t.pending p, ∀ b ∈ t.pending p, a.1 = b.1
  once : ∀ p, (t.pending p).Nodup
  fresh : ∀ q, t.count ≤ q → t.live q = [] ∧ t.dropped q = []

theorem Inv.start : Inv ({} : Topic α) := by
  refine ⟨rfl, ?_, ?_, ?_, ?_, ?_, ?_⟩ <;> simp

theorem Inv.lt (h : Inv t) (member : x ∈ t.published) : x.number < t.published.length := by
  have counted := List.mem_map_of_mem (f := Publication.number) member
  rw [h.numbered] at counted
  exact List.mem_range.mp counted

theorem Inv.nodup (h : Inv t) : t.published.Nodup := by
  refine List.Nodup.of_map Publication.number ?_
  rw [h.numbered]
  exact List.nodup_range

theorem Inv.new (h : Inv t) (publisher : ℕ) (item : α) : t.next publisher item ∉ t.published :=
  fun member => absurd (h.lt member) (lt_irrefl _)

theorem Inv.publish (h : Inv t) {item : α} {order : List ℕ}
    (visits : order.Perm t.subscribers) : Inv (t.publish p item order) := by
  have pend (r : ℕ) : (t.publish p item order).pending r =
      if r = p then order.map (t.next p item, ·) else t.pending r := by
    simp only [Topic.publish, Function.update_apply]
  refine ⟨?_, h.members, fun r => ?_, fun r a owes => ?_, fun r a owes b owes' => ?_, fun r => ?_,
    h.fresh⟩
  · simp [Topic.publish, Topic.next, h.numbered, List.range_succ]
  · have before := h.joined r
    simp only [Topic.publish, List.length_append, List.length_singleton]
    omega
  · rw [pend] at owes
    split at owes
    · obtain ⟨s, listed, rfl⟩ := List.mem_map.mp owes
      rename_i same
      exact ⟨by simp [Topic.publish], same.symm, h.members.2 s (visits.mem_iff.mp listed)⟩
    · obtain ⟨old, mine, known⟩ := h.owed r a owes
      exact ⟨List.mem_append_left _ old, mine, known⟩
  · rw [pend] at owes owes'
    split at owes
    · rename_i same
      rw [if_pos same] at owes'
      obtain ⟨_, _, rfl⟩ := List.mem_map.mp owes
      obtain ⟨_, _, rfl⟩ := List.mem_map.mp owes'
      rfl
    · rename_i other
      rw [if_neg other] at owes'
      exact h.single r a owes b owes'
  · rw [pend]
    split
    · exact (visits.nodup_iff.mpr h.members.1).map fun _ _ same => (Prod.ext_iff.mp same).2
    · exact h.once r

/-- What a settled put leaves owed. -/
theorem settle_pending {rest : List (Publication α × ℕ)} (owes : t.pending p = (x, q) :: rest)
    (kept : Bool) (r : ℕ) :
    (t.settle p kept).pending r = if r = p then rest else t.pending r := by
  simp only [Topic.settle, owes, Function.update_apply]

/-- A settled put is owed no longer, and every other one still is. -/
theorem settle_owed (h : Inv t) {rest : List (Publication α × ℕ)}
    (owed : t.pending p = (x, q) :: rest) (kept : Bool) (y : Publication α) (r : ℕ) :
    (y, r) ∈ (t.settle p kept).pending y.publisher ↔
      (y, r) ∈ t.pending y.publisher ∧ ¬(y = x ∧ r = q) := by
  have own : x.publisher = p := (h.owed p (x, q) (by simp [owed])).2.1
  have gone : (x, q) ∉ rest := by
    have once := h.once p
    rw [owed] at once
    exact (List.nodup_cons.mp once).1
  rw [settle_pending owed]
  by_cases mine : y.publisher = p
  · rw [if_pos mine, mine, owed, List.mem_cons, Prod.mk.injEq]
    constructor
    · intro later
      exact ⟨Or.inr later, fun same => gone (by rw [← same.1, ← same.2]; exact later)⟩
    · rintro ⟨first | later, other⟩
      · exact absurd first other
      · exact later
  · rw [if_neg mine]
    have other : ¬(y = x ∧ r = q) := by
      rintro ⟨rfl, _⟩
      exact mine own
    exact (and_iff_left other).symm

theorem Inv.settle (h : Inv t) {rest : List (Publication α × ℕ)}
    (owes : t.pending p = (x, q) :: rest) (kept : Bool) : Inv (t.settle p kept) := by
  have fewer (r : ℕ) : ((t.settle p kept).pending r).Sublist (t.pending r) := by
    rw [settle_pending owes]
    split
    · rename_i same
      rw [same, owes]
      exact List.sublist_cons_self _ _
    · exact List.Sublist.refl _
  have known : q < t.count := (h.owed p (x, q) (by simp [owes])).2.2
  refine ⟨?_, ?_, ?_, fun r a member => ?_, fun r a member b member' => ?_, fun r => ?_,
    fun r new => ?_⟩
  · simpa [Topic.settle, owes] using h.numbered
  · simpa [Topic.settle, owes] using h.members
  · simpa [Topic.settle, owes] using h.joined
  · simpa [Topic.settle, owes] using h.owed r a ((fewer r).subset member)
  · exact h.single r a ((fewer r).subset member) b ((fewer r).subset member')
  · exact (h.once r).sublist (fewer r)
  · have other : r ≠ q := by
      have later : t.count ≤ r := by simpa [Topic.settle, owes] using new
      omega
    have before := h.fresh r (by simpa [Topic.settle, owes] using new)
    cases kept with
    | true => simpa [Topic.settle, owes, Function.update_of_ne other] using before
    | false => simpa [Topic.settle, owes, Function.update_of_ne other] using before

theorem Inv.join (h : Inv t) : Inv t.join := by
  refine ⟨h.numbered, ⟨?_, ?_⟩, fun r => ?_, fun r a owes => ?_, h.single, h.once, fun r new => ?_⟩
  · have unused : t.count ∉ t.subscribers := fun member =>
      absurd (h.members.2 _ member) (lt_irrefl _)
    exact List.nodup_append.mpr ⟨h.members.1, List.nodup_singleton _, by
      intro a member b same
      rw [List.mem_singleton.mp same]
      exact fun equal => unused (equal ▸ member)⟩
  · intro r member
    rcases List.mem_append.mp member with old | new
    · have before := h.members.2 r old
      simp only [Topic.join]
      omega
    · simp [Topic.join, List.mem_singleton.mp new]
  · by_cases same : r = t.count
    · simp [Topic.join, same]
    · simpa [Topic.join, Function.update_of_ne same] using h.joined r
  · obtain ⟨old, mine, known⟩ := h.owed r a owes
    exact ⟨old, mine, by simp only [Topic.join]; omega⟩
  · refine h.fresh r ?_
    simp only [Topic.join] at new
    omega

theorem Inv.leave (h : Inv t) (r : ℕ) : Inv (t.leave r) :=
  ⟨h.numbered, ⟨h.members.1.erase r, fun q member => h.members.2 q (List.mem_of_mem_erase member)⟩,
    h.joined, h.owed, h.single, h.once, h.fresh⟩

theorem Inv.step (h : Inv t) (step : topicStep t e = some t') : Inv t' := by
  cases e with
  | publish publisher item order =>
    simp only [topicStep, Option.ite_none_right_eq_some, Option.some.injEq] at step
    obtain ⟨⟨_, visits⟩, rfl⟩ := step
    exact h.publish visits
  | settle publisher kept =>
    simp only [topicStep, Option.ite_none_left_eq_some, Option.some.injEq] at step
    obtain ⟨busy, rfl⟩ := step
    obtain ⟨⟨x, q⟩, rest, owes⟩ := List.exists_cons_of_ne_nil busy
    exact h.settle owes kept
  | join =>
    cases step
    exact h.join
  | leave r =>
    cases step
    exact h.leave r

theorem Inv.number (h : Inv t) {i : ℕ} (inside : i < t.published.length) :
    t.published[i].number = i := by
  have counted := congrArg (fun l => l[i]?) h.numbered
  simpa [inside] using counted

theorem Inv.number_inj (h : Inv t) {y : Publication α} (first : x ∈ t.published)
    (second : y ∈ t.published) (same : x.number = y.number) : x = y := by
  obtain ⟨i, inside, rfl⟩ := List.getElem_of_mem first
  obtain ⟨j, within, rfl⟩ := List.getElem_of_mem second
  rw [h.number, h.number] at same
  subst same
  rfl

/-- What holds of any two publications in their order holds of any two by their numbers. -/
theorem Inv.pairwise (h : Inv t) {R : Publication α → Publication α → Prop}
    (ordered : t.published.Pairwise R) {y : Publication α} (first : x ∈ t.published)
    (second : y ∈ t.published) (before : x.number < y.number) : R x y := by
  obtain ⟨i, inside, rfl⟩ := List.getElem_of_mem first
  obtain ⟨j, within, rfl⟩ := List.getElem_of_mem second
  rw [h.number, h.number] at before
  exact List.pairwise_iff_getElem.mp ordered i j inside within before

/-- A subscriber's place is settled when it joins. -/
theorem topicStep_known (known : q < t.count) (step : topicStep t e = some t') :
    t'.joined q = t.joined q ∧ q < t'.count ∧ t.published <+: t'.published := by
  cases e with
  | publish publisher item order =>
    simp only [topicStep, Option.ite_none_right_eq_some, Option.some.injEq] at step
    obtain ⟨_, rfl⟩ := step
    exact ⟨rfl, known, List.prefix_append _ _⟩
  | settle publisher kept =>
    simp only [topicStep, Option.ite_none_left_eq_some, Option.some.injEq] at step
    obtain ⟨busy, rfl⟩ := step
    obtain ⟨⟨x, r⟩, rest, owes⟩ := List.exists_cons_of_ne_nil busy
    simp [Topic.settle, owes, known]
  | join =>
    cases step
    have other : q ≠ t.count := by omega
    refine ⟨Function.update_of_ne other _ _, ?_, List.prefix_rfl⟩
    simp only [Topic.join]
    omega
  | leave r =>
    cases step
    exact ⟨rfl, known, List.prefix_rfl⟩

theorem topicStep_published (step : topicStep t e = some t') :
    t'.published = t.published ∨ ∃ publisher item order, e = .publish publisher item order ∧
      t'.published = t.published ++ [t.next publisher item] := by
  cases e with
  | publish publisher item order =>
    simp only [topicStep, Option.ite_none_right_eq_some, Option.some.injEq] at step
    obtain ⟨_, rfl⟩ := step
    exact Or.inr ⟨publisher, item, order, rfl, rfl⟩
  | settle publisher kept =>
    simp only [topicStep, Option.ite_none_left_eq_some, Option.some.injEq] at step
    obtain ⟨busy, rfl⟩ := step
    obtain ⟨⟨x, r⟩, rest, owes⟩ := List.exists_cons_of_ne_nil busy
    exact Or.inl (by simp [Topic.settle, owes])
  | join =>
    cases step
    exact Or.inl rfl
  | leave r =>
    cases step
    exact Or.inl rfl

section Order

variable {κ : Publication α → Bool}

/-- At most one publication of the kind is being put at a time. -/
def OneAtATime (κ : Publication α → Bool) (t : Topic α) : Prop :=
  ∀ p p', ∀ a ∈ t.pending p, ∀ b ∈ t.pending p', κ a.1 = true → κ b.1 = true → a.1 = b.1

/-- A publication of the kind waits for the puts of the one before it. -/
def Waits (κ : Publication α → Bool) (t : Topic α) : TopicEvent α → Prop
  | .publish publisher item _ => κ (t.next publisher item) = true →
    ∀ p, ∀ a ∈ t.pending p, κ a.1 = false
  | _ => True

/-- One publisher puts one publication at a time. -/
theorem Inv.oneAtATime_publisher (h : Inv t) (p : ℕ) :
    OneAtATime (fun x => decide (x.publisher = p)) t := by
  intro r r' a member b member' own own'
  have same : r = r' := by
    rw [decide_eq_true_eq] at own own'
    rw [← (h.owed r a member).2.1, ← (h.owed r' b member').2.1, own, own']
  subst same
  exact h.single r a member b member'

theorem oneAtATime_self [DecidableEq α] (x : Publication α) : OneAtATime (fun y => decide (y = x)) t := by
  intro r r' a _ b _ own own'
  rw [decide_eq_true_eq] at own own'
  rw [own, own']

theorem OneAtATime.step (one : OneAtATime κ t) (waits : Waits κ t e)
    (step : topicStep t e = some t') : OneAtATime κ t' := by
  cases e with
  | publish publisher item order =>
    simp only [topicStep, Option.ite_none_right_eq_some, Option.some.injEq] at step
    obtain ⟨_, rfl⟩ := step
    have old (r : ℕ) (a : Publication α × ℕ) (member : a ∈ (t.publish publisher item order).pending r) :
        a.1 = t.next publisher item ∨ a ∈ t.pending r := by
      simp only [Topic.publish, Function.update_apply] at member
      split at member
      · obtain ⟨_, _, rfl⟩ := List.mem_map.mp member
        exact Or.inl rfl
      · exact Or.inr member
    intro r r' a member b member' kind kind'
    rcases old r a member with new | before
    · rcases old r' b member' with new' | before'
      · rw [new, new']
      · rw [new] at kind
        rw [waits kind r' b before'] at kind'
        cases kind'
    · rcases old r' b member' with new' | before'
      · rw [new'] at kind'
        rw [waits kind' r a before] at kind
        cases kind
      · exact one r r' a before b before' kind kind'
  | settle publisher kept =>
    simp only [topicStep, Option.ite_none_left_eq_some, Option.some.injEq] at step
    obtain ⟨busy, rfl⟩ := step
    obtain ⟨⟨x, q⟩, rest, owed⟩ := List.exists_cons_of_ne_nil busy
    have old (r : ℕ) (a : Publication α × ℕ) (member : a ∈ (t.settle publisher kept).pending r) :
        a ∈ t.pending r := by
      rw [settle_pending owed] at member
      split at member
      · rename_i same
        rw [same, owed]
        exact List.mem_cons_of_mem _ member
      · exact member
    intro r r' a member b member'
    exact one r r' a (old r a member) b (old r' b member')
  | join =>
    cases step
    exact one
  | leave r =>
    cases step
    exact one

variable [DecidableEq α]

/-- The publications of a kind that are still owed to a subscriber. -/
def owes (κ : Publication α → Bool) (t : Topic α) (q : ℕ) : List (Publication α) :=
  t.published.filter fun x => κ x && decide ((x, q) ∈ t.pending x.publisher)

/-- The publications of a kind since a subscriber joined. -/
def since (κ : Publication α → Bool) (t : Topic α) (q : ℕ) : List (Publication α) :=
  t.published.filter fun x => κ x && decide (t.joined q ≤ x.number)

/-- What a subscriber has and what it is owed come in the order of publication, and are
all there is unless a put was dropped. -/
structure InOrder (κ : Publication α → Bool) (t : Topic α) (q : ℕ) : Prop where
  sublist : ((t.live q).filter κ ++ owes κ t q).Sublist (since κ t q)
  all : q ∈ t.subscribers → t.dropped q = [] → (t.live q).filter κ ++ owes κ t q = since κ t q

theorem InOrder.start (q : ℕ) : InOrder κ ({} : Topic α) q :=
  ⟨List.Sublist.refl _, fun _ _ => rfl⟩

theorem InOrder.publish (order : InOrder κ t q) (h : Inv t) {item : α} {visits : List ℕ}
    (idle : t.pending p = []) (perm : visits.Perm t.subscribers) :
    InOrder κ (t.publish p item visits) q := by
  have more : owes κ (t.publish p item visits) q =
      owes κ t q ++ if κ (t.next p item) = true ∧ q ∈ visits then [t.next p item] else [] := by
    unfold owes
    simp only [Topic.publish, List.filter_append]
    congr 1
    · refine List.filter_congr fun y member => ?_
      have other : y ≠ t.next p item := fun same => h.new p item (same ▸ member)
      by_cases own : y.publisher = p
      · subst own
        simp [idle, other.symm]
      · simp [Function.update_of_ne own]
    · by_cases kind : κ (t.next p item) = true
      · by_cases listed : q ∈ visits
        · have own : (t.next p item, q) ∈
              Function.update t.pending p (visits.map (t.next p item, ·))
                (t.next p item).publisher := by
            simp [Topic.next, listed]
          rw [if_pos ⟨kind, listed⟩]
          simp [kind, own]
        · rw [if_neg fun both => listed both.2]
          simp [listed, Topic.next]
      · rw [if_neg fun both => kind both.1]
        simp [kind]
  have longer : since κ (t.publish p item visits) q =
      since κ t q ++ if κ (t.next p item) = true then [t.next p item] else [] := by
    have joined := h.joined q
    have late : t.joined q ≤ (t.next p item).number := joined
    rw [since, since, Topic.publish, List.filter_append]
    congr 1
    by_cases kind : κ (t.next p item) = true
    · simp [kind, late]
    · simp [kind]
  refine ⟨?_, fun subscribed whole => ?_⟩
  · rw [more, longer, ← List.append_assoc]
    refine order.sublist.append ?_
    by_cases kind : κ (t.next p item) = true
    · by_cases listed : q ∈ visits
      · simp [kind, listed]
      · simp [kind, listed]
    · simp [kind]
  · have listed : q ∈ visits := perm.mem_iff.mpr subscribed
    have before : (t.live q).filter κ ++ owes κ t q = since κ t q := order.all subscribed whole
    rw [more, longer, ← before, List.append_assoc]
    simp [Topic.publish, listed]

/-- Of a kind that goes one at a time, the publication being put is all that is owed. -/
theorem owes_single (h : Inv t) (one : OneAtATime κ t) {rest : List (Publication α × ℕ)}
    (owed : t.pending p = (x, q) :: rest) (kind : κ x = true) : owes κ t q = [x] := by
  have head : (x, q) ∈ t.pending p := by simp [owed]
  obtain ⟨published, own, _⟩ := h.owed p (x, q) head
  have only : owes κ t q = t.published.filter fun y => decide (y = x) := by
    refine List.filter_congr fun y _ => ?_
    rw [Bool.eq_iff_iff]
    simp only [Bool.and_eq_true, decide_eq_true_eq]
    constructor
    · rintro ⟨kind', owes'⟩
      exact one _ p _ owes' _ head kind' kind
    · rintro rfl
      exact ⟨kind, by rw [own]; exact head⟩
  rw [only, List.filter_eq, List.count_eq_one_of_mem h.nodup published]
  rfl

theorem InOrder.settle {r : ℕ} (order : InOrder κ t r) (h : Inv t) (one : OneAtATime κ t)
    {rest : List (Publication α × ℕ)} (owed : t.pending p = (x, q) :: rest) (kept : Bool) :
    InOrder κ (t.settle p kept) r := by
  have head : (x, q) ∈ t.pending p := by simp [owed]
  have still := fun y => settle_owed h owed kept y r
  have same_since : since κ (t.settle p kept) r = since κ t r := by
    simp [since, Topic.settle, owed]
  by_cases concerns : r = q ∧ κ x = true
  · obtain ⟨rfl, kind⟩ := concerns
    have before := owes_single h one owed kind
    have after : owes κ (t.settle p kept) r = [] := by
      refine List.filter_eq_nil_iff.mpr fun y _ => ?_
      rw [Bool.and_eq_true, decide_eq_true_eq, still]
      rintro ⟨kind', owes', other⟩
      exact other ⟨one _ p _ owes' _ head kind' kind, rfl⟩
    cases kept with
    | true =>
      have live : ((t.settle p true).live r).filter κ ++ owes κ (t.settle p true) r =
          (t.live r).filter κ ++ owes κ t r := by
        rw [after, before]
        simp [Topic.settle, owed, kind]
      refine ⟨?_, fun subscribed whole => ?_⟩
      · rw [live, same_since]
        exact order.sublist
      · rw [live, same_since]
        exact order.all (by simpa [Topic.settle, owed] using subscribed)
          (by simpa [Topic.settle, owed] using whole)
    | false =>
      refine ⟨?_, fun _ whole => ?_⟩
      · rw [after, same_since, List.append_nil]
        have all := order.sublist
        rw [before] at all
        simpa [Topic.settle, owed] using (List.sublist_append_left _ _).trans all
      · simp [Topic.settle, owed] at whole
  · have same_owes : owes κ (t.settle p kept) r = owes κ t r := by
      unfold owes
      have published : (t.settle p kept).published = t.published := by simp [Topic.settle, owed]
      rw [published]
      refine List.filter_congr fun y _ => ?_
      rw [Bool.eq_iff_iff]
      simp only [Bool.and_eq_true, decide_eq_true_eq, still]
      constructor
      · exact fun ⟨kind, owes', _⟩ => ⟨kind, owes'⟩
      · intro ⟨kind, owes'⟩
        exact ⟨kind, owes', fun same => concerns ⟨same.2, same.1 ▸ kind⟩⟩
    have same_live : ((t.settle p kept).live r).filter κ = (t.live r).filter κ := by
      cases kept with
      | false => simp [Topic.settle, owed]
      | true =>
        by_cases mine : r = q
        · subst mine
          have other : κ x = false := by simpa using concerns
          simp [Topic.settle, owed, other]
        · simp [Topic.settle, owed, Function.update_of_ne mine]
    refine ⟨?_, fun subscribed whole => ?_⟩
    · rw [same_owes, same_live, same_since]
      exact order.sublist
    · rw [same_owes, same_live, same_since]
      refine order.all (by simpa [Topic.settle, owed] using subscribed) ?_
      cases kept with
      | true => simpa [Topic.settle, owed] using whole
      | false =>
        by_cases mine : r = q
        · simp [Topic.settle, owed, mine] at whole
        · simpa [Topic.settle, owed, Function.update_of_ne mine] using whole

/-- Nothing is owed to a new subscriber, which has missed all that was published. -/
theorem InOrder.join (order : InOrder κ t q) (h : Inv t) : InOrder κ t.join q := by
  by_cases new : q = t.count
  · have live : t.live q = [] := (h.fresh q new.ge).1
    have nothing : owes κ t.join q = [] := by
      refine List.filter_eq_nil_iff.mpr fun y _ both => ?_
      rw [Bool.and_eq_true, decide_eq_true_eq] at both
      have known := (h.owed y.publisher (y, q) both.2).2.2
      omega
    have missed : since κ t.join q = [] := by
      refine List.filter_eq_nil_iff.mpr fun y member both => ?_
      rw [Bool.and_eq_true, decide_eq_true_eq] at both
      have early := h.lt member
      have late := both.2
      simp only [Topic.join, new, Function.update_self] at late
      omega
    have silent : t.join.live q = [] := live
    refine ⟨?_, fun _ _ => ?_⟩
    · rw [silent, nothing, missed]
      exact List.Sublist.refl _
    · rw [silent, nothing, missed]
      rfl
  · have same : since κ t.join q = since κ t q := by
      simp [since, Topic.join, Function.update_of_ne new]
    refine ⟨?_, fun subscribed whole => ?_⟩
    · rw [same]
      exact order.sublist
    · rw [same]
      refine order.all ?_ whole
      rcases List.mem_append.mp subscribed with old | last
      · exact old
      · exact absurd (List.mem_singleton.mp last) new

theorem InOrder.step (order : InOrder κ t q) (h : Inv t) (one : OneAtATime κ t)
    (step : topicStep t e = some t') : InOrder κ t' q := by
  cases e with
  | publish publisher item visits =>
    simp only [topicStep, Option.ite_none_right_eq_some, Option.some.injEq] at step
    obtain ⟨⟨idle, perm⟩, rfl⟩ := step
    exact order.publish h idle perm
  | settle publisher kept =>
    simp only [topicStep, Option.ite_none_left_eq_some, Option.some.injEq] at step
    obtain ⟨busy, rfl⟩ := step
    obtain ⟨⟨x, r⟩, rest, owed⟩ := List.exists_cons_of_ne_nil busy
    exact order.settle h one owed kept
  | join =>
    cases step
    exact order.join h
  | leave r =>
    cases step
    exact ⟨order.sublist, fun subscribed whole =>
      order.all (List.mem_of_mem_erase subscribed) whole⟩

/-- What holds of a topic at any time. -/
structure Sound (t : Topic α) : Prop where
  inv : Inv t
  publisher : ∀ p q, InOrder (fun x => decide (x.publisher = p)) t q
  self : ∀ x q, InOrder (fun y => decide (y = x)) t q

theorem Sound.start : Sound ({} : Topic α) :=
  ⟨Inv.start, fun _ q => InOrder.start q, fun _ q => InOrder.start q⟩

theorem Sound.step (h : Sound t) (step : topicStep t e = some t') : Sound t' :=
  ⟨h.inv.step step, fun p q => (h.publisher p q).step h.inv (h.inv.oneAtATime_publisher p) step,
    fun x q => (h.self x q).step h.inv (oneAtATime_self x) step⟩

/-- What was put on a subscriber's queue was published since it joined. -/
theorem Sound.live_since (h : Sound t) (member : x ∈ t.live q) :
    x ∈ t.published ∧ t.joined q ≤ x.number := by
  have kept : x ∈ (t.live q).filter fun y => decide (y = x) := by simp [member]
  have later := (h.self x q).sublist.subset (List.mem_append_left _ kept)
  obtain ⟨published, both⟩ := List.mem_filter.mp later
  rw [Bool.and_eq_true, decide_eq_true_eq, decide_eq_true_eq] at both
  exact ⟨published, both.2⟩

end Order

end EdgeVoice.Broadcast
