import Mathlib.Data.List.Chain
import Tenure.Proofs.Coherence

/-!
# The history is a chain

Running through the effective events leaves a list of transitions, whatever the events are:
creations of what is there already, changes before any creation, phases behind a cancellation.

**Theorem (`history_is_chained`).** The list makes sense. It opens with a start, each transition
goes on from where the one before it has led, and behind a cancellation there is nothing but a new
start.

The cursor that runs through the events is not seen in the list. A transition tells all that the
cursor knows behind it: whether the subscription is live, and on what (`Cursor.Admits.follows`). So
what one step needs of the cursor is what the next transition owes to the one before it.
-/

namespace Tenure

/-! ## From one transition to the next -/

namespace Transition

/-- `b` goes on from where `a` has led. -/
structure Follows (b a : Transition) : Prop where
  previous : b.previous = if a.type = .cancel then none else a.next
  restarts : a.type = .cancel → b.type.startsSubscription = true
  /-- A phase keeps the plan and the price list. -/
  phase : b.type = .phase → ∃ p name, a.next = some p ∧ b.next = some { p with phase := name }

end Transition

namespace Cursor.Admits

variable {c : Cursor} {a b : Transition}

/-- Behind a transition the next one finds what the transition tells. -/
theorem follows (ha : c.Admits a) (hb : (c.advance a).Admits b) : b.Follows a := by
  have hprevious := hb.previous
  have hphase := hb.phase
  rw [ha.advance_eq] at hprevious hphase
  by_cases hcancel : a.type = .cancel
  · have hstart : b.type.startsSubscription = true := hb.starts (by
      rw [ha.advance_eq, if_pos hcancel]
      exact Bool.and_false _)
    rw [if_pos hcancel] at hprevious
    refine ⟨by rw [if_pos hcancel, hprevious]; rfl, fun _ => hstart, fun hphase => ?_⟩
    rw [hphase] at hstart
    cases hstart
  · rw [if_neg hcancel] at hprevious hphase
    exact ⟨by rw [if_neg hcancel, hprevious]; rfl, fun h => absurd h hcancel, hphase⟩

theorem previous_isSome (h : c.Admits a) (hcancel : a.type = .cancel) :
    a.previous.isSome = true := by
  have hlive : c.isLive = true := h.live (by rw [hcancel]; rfl)
  simp only [isLive, Bool.and_eq_true, Bool.not_eq_true'] at hlive
  rw [h.previous, Cursor.previous, hlive.2]
  exact hlive.1

end Cursor.Admits

/-! ## The whole run -/

theorem admits_of_mem_head? {c : Cursor} {es : List Event} {t : Transition}
    (h : t ∈ (transitionsFrom c es).head?) : c.Admits t := by
  induction es with
  | nil => cases h
  | cons e es ih =>
    rw [transitionsFrom] at h
    cases ht : c.transition? e with
    | none =>
      rw [ht] at h
      exact ih h
    | some u =>
      rw [ht] at h
      cases h
      exact Cursor.admits ht

theorem isChain_transitionsFrom (c : Cursor) (es : List Event) :
    (transitionsFrom c es).IsChain fun a b => b.Follows a := by
  induction es generalizing c with
  | nil => exact .nil
  | cons e es ih =>
    rw [transitionsFrom]
    cases ht : c.transition? e with
    | none => exact ih c
    | some t =>
      exact List.isChain_cons.2
        ⟨fun u hu => (Cursor.admits ht).follows (admits_of_mem_head? hu), ih (c.advance t)⟩

/-! ## The history -/

theorem Event.date_or_ordering_of_le {a b : Event} (h : Event.le a b = true) :
    a.effective < b.effective ∨ a.effective = b.effective ∧ a.ordering ≤ b.ordering := by
  simp only [Event.le, Bool.or_eq_true, Bool.and_eq_true, decide_eq_true_eq, beq_iff_eq] at h
  rcases h with h | ⟨hdate, h | ⟨hordering, -⟩⟩
  · exact .inl h
  · exact .inr ⟨hdate, Nat.le_of_lt h⟩
  · exact .inr ⟨hdate, Nat.le_of_eq hordering⟩

/-- The history that these events make makes sense as a whole. -/
structure IsChained (history : List Transition) (es : List Event) : Prop where
  inOrder : history.Pairwise fun a b =>
    a.effective < b.effective ∨ a.effective = b.effective ∧ a.ordering ≤ b.ordering
  opens : ∀ t ∈ history.head?, t.type.startsSubscription = true ∧ t.previous = none
  follows : history.IsChain fun a b => b.Follows a
  cancels : ∀ t ∈ history, t.type = .cancel →
    t.previous.isSome = true ∧ t.next = none ∧ t.activity = .cancelled
  leads : ∀ t ∈ history, t.type ≠ .cancel → t.next.isSome = true ∧ t.activity = .active
  distinct : (history.map (·.event)).Nodup
  made : ∀ t ∈ history, ∃ e ∈ effectiveEvents es, e.mark = t.mark
  moves : ∀ t ∈ history, ∀ e ∈ es, e.id = t.event → e.type ≠ .uncancel ∧ e.type ≠ .migrateBilling

/-- **The history is a chain**, whatever the events are. It stands in order, opens with a start from
nothing, and goes on from each transition where that one has led: from its target, or after a
cancellation from nothing and by a start. Cancellations lead from a target to none and all other
transitions to one, phases to the same plan and price list. Each is made by one effective event, and
never by one that takes a cancellation back or marks what has been billed. -/
theorem history_is_chained {es : List Event} (hids : (es.map (·.id)).Nodup) :
    IsChained (transitions es) es where
  inOrder := by
    have hevents := pairwise_sortBy Event.le_total Event.le_trans
      (es.filter fun e => !(superseded es).contains e.id)
    exact pairwise_transitionsFrom
      (R := fun a b =>
        a.effective < b.effective ∨ a.effective = b.effective ∧ a.ordering ≤ b.ordering)
      (hevents.imp Event.date_or_ordering_of_le) .start
  opens t ht := by
    have hadmits := admits_of_mem_head? ht
    exact ⟨hadmits.starts rfl, hadmits.previous⟩
  follows := isChain_transitionsFrom _ _
  cancels t ht hcancel := by
    obtain ⟨c, hc⟩ := exists_admits_of_mem ht
    exact ⟨hc.previous_isSome hcancel, hc.cancels hcancel⟩
  leads t ht hcancel := by
    obtain ⟨c, hc⟩ := exists_admits_of_mem ht
    exact hc.leads hcancel
  distinct := by
    have hsub := (marks_transitionsFrom .start (effectiveEvents es)).map (·.event)
    rw [List.map_map, List.map_map] at hsub
    exact (nodup_ids_effectiveEvents hids).sublist hsub
  made t ht := exists_mark_eq ht
  moves t ht e he hid := by
    obtain ⟨c, hc⟩ := exists_admits_of_mem ht
    obtain ⟨f, hf, hmark⟩ := exists_mark_eq ht
    -- No other event has the identifier.
    have hsame : e = f := List.inj_on_of_nodup_map hids he (mem_effectiveEvents.1 hf).1
      (hid.trans (congrArg (·.event) hmark).symm)
    have htype : e.type = t.type := hsame ▸ congrArg (·.type) hmark
    rw [htype]
    exact hc.moves

namespace Sample

/-- Three lives, of which the first was billed on day 10. An end of the last was taken back. -/
def billedLives : List Event :=
  lives ++ [event 8 10 (.migrateBilling ⟨"pistol-monthly", "trial", "DEFAULT"⟩), event 9 70 .cancel,
    event 10 65 .uncancel]

end Sample

/-- Only the starts and the ends of the first two lives make a transition. -/
theorem history_is_chained_sample :
    (Sample.billedLives.map (·.id)).Nodup ∧
      IsChained (transitions Sample.billedLives) Sample.billedLives ∧
      (transitions Sample.billedLives).map (·.event) = [⟨2⟩, ⟨3⟩, ⟨4⟩, ⟨5⟩, ⟨7⟩] := by
  have hids : (Sample.billedLives.map (·.id)).Nodup := by decide
  exact ⟨hids, history_is_chained hids, by decide⟩

end Tenure
