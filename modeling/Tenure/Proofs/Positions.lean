import Tenure.Proofs.Completion
import Tenure.Proofs.Terms

/-!
# The position at a date

What a reader is told of a subscription at a date comes down to its position: the plan, phase and
price list in force (`Subscription.targetAt?`). A subscription that is not cancelled stands where
its moves have led (`courseAt`), and from one date to a later one it is led on by the moves that
lie between them (`courseAt_of_le`). Without its cancellations it stands there at every date
(`Subscription.targetAt?_uncancelled`).
-/

namespace Tenure

/-! ## Positions and courses -/

section Courses

variable {es fs : List Event} {a t : Instant} {n v : Nat}

theorem standingAt_bind_target?_of_no_cancel (hids : (es.map (·.id)).Nodup)
    (h : ∀ e ∈ es, e.type ≠ .cancel) (category : Category) (t : Instant) :
    (standingAt es category t).bind (·.target?) = courseAt es t := by
  have hlive : (reached es t).cancelled = false := cancelled_through rfl fun e he =>
    h e (mem_effectiveEvents.1 (List.mem_filter.1 he).1).1
  rw [standingAt_bind_target?, if_neg (by simp [hlive]), target_reached hids hlive]

/-- With one start, the position at a date is where the moves have led until the end comes. -/
theorem OpensOnce.targetAt? {start : Instant} (h : OpensOnce start es) (category : Category)
    (t : Instant) : (Tenure.standingAt es category t).bind (·.target?) =
      if (endOf start es).any (· ≤ t) then none else courseAt es t := by
  obtain ⟨st, hst, -⟩ := h.standingAt category t
  rw [hst, Option.bind_some, h.target? hst]

theorem courseAt_isSome (hids : (es.map (·.id)).Nodup) {date : Instant} (h : date ∈ starts es)
    (hle : date ≤ t) : (courseAt es t).isSome = true := by
  obtain ⟨e, he, hstart, rfl⟩ := mem_starts.1 h
  refine leads_of_starts (fun hnil => ?_) none
  have hmem : e ∈ (effectiveEvents (es.filter (·.isMove))).filter (·.effective ≤ t) := by
    rw [effectiveEvents_moves hids, List.mem_filter, List.mem_filter]
    exact ⟨⟨mem_effectiveEvents_of_starts hids he hstart, by simp [Event.isMove, hstart]⟩,
      by simpa using hle⟩
  rw [starts_eq_nil.1 hnil e hmem] at hstart
  cases hstart

theorem courseAt_of_le (h : a ≤ t) : courseAt es t = leads (courseAt es a)
    (((effectiveEvents (es.filter (·.isMove))).filter fun e =>
      a < e.effective && e.effective ≤ t).map (·.payload)) := by
  have hsofar : ((effectiveEvents (es.filter (·.isMove))).filter (·.effective ≤ t)).filter
      (·.effective ≤ a) = (effectiveEvents (es.filter (·.isMove))).filter (·.effective ≤ a) := by
    rw [List.filter_filter]
    refine List.filter_congr fun e _ => ?_
    simp only [Bool.and_eq_left_iff_imp, decide_eq_true_eq]
    exact fun hle => Int.le_trans hle h
  rw [courseAt, courseAt, ← leads_append, ← List.map_append, ← hsofar, ← List.filter_filter,
    filter_append_filter_of_date ((pairwise_date_effectiveEvents _).sublist List.filter_sublist)]

theorem courseAt_filter_cancel (es : List Event) (t : Instant) :
    courseAt (es.filter (·.type != .cancel)) t = courseAt es t := by
  rw [courseAt, filter_isMove_filter_cancel, courseAt]

/-- Events up to a date are filed as those up to it. -/
theorem map_payload_filter_of_filed (h : List.Forall₂ (fun f e => ∃ k, f = e.filed v k) fs es)
    (t : Instant) : (fs.filter (·.effective ≤ t)).map (·.payload) =
      (es.filter (·.effective.floorMillis ≤ t)).map (·.payload) := by
  induction h with
  | nil => rfl
  | @cons f e fs es hfe _ ih =>
    obtain ⟨k, rfl⟩ := hfe
    rw [List.filter_cons, List.filter_cons, Event.filed_effective]
    split
    · rw [List.map_cons, List.map_cons, ih, Event.filed_payload]
    · exact ih

theorem Laid.map_payload_filter (h : Laid n fs (es.map (·, v))) (t : Instant) :
    (fs.filter (·.effective ≤ t)).map (·.payload) =
      (es.filter (·.effective.floorMillis ≤ t)).map (·.payload) :=
  map_payload_filter_of_filed (h.forall₂.imp fun _ _ ⟨k, _, hf⟩ => ⟨k, hf⟩) t

theorem Laid.courseAt_eq (h : Laid n fs (es.map (·, v)))
    (hord : fs.Pairwise (fun a b => a.ordering < b.ordering))
    (hdate : (es.filter (·.isMove)).Pairwise (fun a b => a.effective ≤ b.effective))
    (hdown : ∀ e ∈ es.filter (·.isMove), e.effective.RoundsDown) (t : Instant) : courseAt fs t =
      leads none ((es.filter (·.effective.floorMillis ≤ t)).map (·.payload)) := by
  rw [courseAt, (h.settled_moves hord hdate hdown).effectiveEvents_eq, List.filter_comm,
    leads_filter_isMove, h.map_payload_filter]

end Courses

/-! ## Positions of subscriptions -/

namespace Subscription

variable {sub : Subscription}

/-- The plan, phase and price list in force at a date, if any. -/
def targetAt? (sub : Subscription) (t : Instant) : Option Target :=
  (sub.standingAt t).bind (·.target?)

/-- The subscription without its cancellations. -/
def uncancelled (sub : Subscription) : Subscription :=
  { sub with events := sub.events.filter (·.type != .cancel) }

/-- Without its cancellations a subscription stands where its moves have led. -/
theorem targetAt?_uncancelled (hids : (sub.events.map (·.id)).Nodup) (t : Instant) :
    sub.uncancelled.targetAt? t = courseAt sub.events t := by
  rw [← courseAt_filter_cancel]
  exact standingAt_bind_target?_of_no_cancel (hids.sublist (List.filter_sublist.map _))
    (fun e he => by simpa using (List.mem_filter.1 he).2) sub.category t

end Subscription

theorem Store.targetAt?_visible {s : Store} (hs : s.Tidy) (r : SubscriptionRecord) (t : Instant) :
    (s.visible r).targetAt? t = (standingAt (s.shown r) r.category t).bind (·.target?) := by
  rw [← standingAt_visible hs]
  rfl

end Tenure
