import Tenure.Proofs.KeptPast
import Tenure.Proofs.Cases
import Tenure.Proofs.Coherence

/-!
# Markers for billing

An import that says until when a subscription has been paid for puts a marker there, which tells
billing what to go on with. It is worked out before anything is stored: the planned events, none of
which has an ordering yet, are replayed up to that date, and the place of the marker is found among
them by bisection.

The planned events are drawn up by date, as long as the last case does not end before it starts, and
their identifiers rise. So nothing among them is superseded, and a replay runs through them as they
stand (`SubscriptionMigration.Draws`). They are stored in this order, to the millisecond, and a
marker is no transition. So the replay of what is stored comes to the same at every date
(`Draws.reached_laid`), and what the marker says is what the stored history shows there.

**Theorem (`migrate_marks_billing`).** There is a marker if and only if the subscription has been
paid for until a date at which it has started and is not cancelled. Then there is one, at that date,
in front of all else that happens then; it names the position of the subscription, and without it
the history would be the same.
-/

namespace Tenure

variable {es fs front back : List Event} {marker : Event} {t : Instant}

/-! ## What a marker says -/

/-- The target last in force before the next event is that of the cursor while it is live. -/
theorem standingAt_lastActiveTarget? {category : Category} {st : Standing}
    (h : standingAt es category t = some st) (hstarted : (reached es t).target.isSome = true)
    (hlive : (reached es t).cancelled = false) : st.lastActiveTarget? = (reached es t).target := by
  obtain ⟨target, htarget⟩ := Option.isSome_iff_exists.1 hstarted
  have hlast := (tells_transitionsUpTo es t).target hlive
  rw [htarget] at hlast
  obtain ⟨u, hu, hnext⟩ := Option.bind_eq_some_iff.1 hlast.symm
  rw [Standing.lastActiveTarget?, standingAt_previous h, hu, Option.bind_some, hnext,
    Option.some_or, htarget]

/-- A marker is there to be placed from the start on until the subscription is cancelled. -/
theorem billingMarker?_eq {category : Category} {start : Instant}
    (hopens : start ≤ t → (reached es t).target.isSome = true) :
    billingMarker? es category start t =
      if start ≤ t ∧ (reached es t).cancelled = false then
        (reached es t).target.map .migrateBilling
      else none := by
  unfold billingMarker?
  by_cases hstart : start ≤ t
  · have hstarted := hopens hstart
    obtain ⟨st, hst, -, hcancelled, -⟩ := standingAt_of_started category hstarted
    have hended : st.finish.any (· ≤ t) = st.isCancelled := by
      obtain ⟨era, -, rfl⟩ := Option.map_eq_some_iff.1 hst
      rfl
    have hbehind : ¬ t < start := Int.not_lt.2 hstart
    rw [if_neg hbehind, hst]
    simp only [hended, hcancelled, hstart, true_and]
    cases hlive : (reached es t).cancelled with
    | true => rfl
    | false => rw [standingAt_lastActiveTarget? hst hstarted hlive]; rfl
  · have hahead : t < start := Int.not_le.1 hstart
    rw [if_pos hahead, if_neg fun h => hstart h.1]

/-! ## Where it is put -/

namespace ImportContext

theorem withMarker_append (hfront : ∀ e ∈ front, e.effective < marker.effective)
    (hback : ∀ e ∈ back, marker.effective ≤ e.effective) :
    withMarker (front ++ back) marker = front ++ marker :: back := by
  have hplace : bisect (·.effective < marker.effective) (front ++ back) = front.length :=
    bisect_append (fun e he => decide_eq_true (hfront e he))
      fun e he => decide_eq_false (Int.not_lt.2 (hback e he))
  rw [withMarker, hplace, List.take_left, List.drop_left]

/-- Among events by date the marker stands behind all that lies before it, and in front of the
rest. -/
theorem exists_withMarker (h : es.Pairwise (fun a b => a.effective ≤ b.effective))
    (marker : Event) : ∃ front back, es = front ++ back ∧
      (∀ e ∈ front, e.effective < marker.effective) ∧
      (∀ e ∈ back, marker.effective ≤ e.effective) ∧
      withMarker es marker = front ++ marker :: back := by
  have hsplit := filter_append_filter_not
    (p := fun e : Event => decide (e.effective < marker.effective))
    (h.imp fun hle hdate => decide_eq_true (Int.lt_of_le_of_lt hle (of_decide_eq_true hdate)))
  have hfront : ∀ e ∈ es.filter (·.effective < marker.effective),
      e.effective < marker.effective := fun e he => of_decide_eq_true (List.mem_filter.1 he).2
  have hback : ∀ e ∈ es.filter (fun e => !decide (e.effective < marker.effective)),
      marker.effective ≤ e.effective := fun e he => by
    have hnot : ¬ e.effective < marker.effective := by simpa using (List.mem_filter.1 he).2
    exact Int.not_lt.1 hnot
  refine ⟨_, _, hsplit.symm, hfront, hback, ?_⟩
  have hplaced := withMarker_append hfront hback
  rwa [hsplit] at hplaced

end ImportContext

/-! ## It makes no difference -/

namespace Cursor

variable {c : Cursor}

theorem transition?_marker (h : marker.type = .migrateBilling) : c.transition? marker = none := by
  cases hp : marker.payload <;> simp_all [Event.type, Payload.type, transition?, destination?]

theorem after_marker (h : marker.type = .migrateBilling) : c.after marker = c := by
  rw [after, transition?_marker h]

theorem through_marker (h : marker.type = .migrateBilling) (p : Event → Bool) :
    c.through ((front ++ marker :: back).filter p) = c.through ((front ++ back).filter p) := by
  rw [List.filter_append, List.filter_append, List.filter_cons, through_append, through_append]
  split
  · rw [through_cons, after_marker h]
  · rfl

end Cursor

theorem transitionsFrom_marker (h : marker.type = .migrateBilling) (c : Cursor) :
    transitionsFrom c (front ++ marker :: back) = transitionsFrom c (front ++ back) := by
  rw [transitionsFrom_append, transitionsFrom_append, transitionsFrom, Cursor.transition?_marker h]

/-! ## Planned events -/

namespace SubscriptionMigration

variable {m : SubscriptionMigration}

/-- The last case does not end before it starts. -/
def EndsForward (m : SubscriptionMigration) : Prop :=
  ∀ last ∈ (sortBy MigrationCase.dateLe m.cases).getLast?, ∀ f ∈ last.finish, last.effective ≤ f

/-- The date until which it has been paid for is a whole millisecond. -/
def PaidInMillis (m : SubscriptionMigration) : Prop :=
  ∀ c ∈ m.chargedThrough, c.floorMillis = c

/-- The events that are drawn up for the cases, from the first date on. -/
structure Draws (m : SubscriptionMigration) (start : Instant) (es : List Event) : Prop where
  first : m.firstDate? = some start
  ascending : es.Pairwise fun a b => a.effective ≤ b.effective
  calm : Calm es
  opens : ∀ t, start ≤ t → (reached es t).target.isSome = true
  types : ∀ e ∈ es, e.type ≠ .uncancel ∧ e.type ≠ .migrateBilling
  inMillis : ∀ e ∈ es, e.effective.floorMillis = e.effective

end SubscriptionMigration

theorem Stamp.pairwise_number (stamp : Stamp) {ids : Nat → EventId}
    (hrise : ∀ m n, m < n → (ids m).number < (ids n).number) (ds : List Draft) :
    (stamp.events ids ds).Pairwise fun a b => a.id.number < b.id.number := by
  induction ds generalizing ids with
  | nil => exact .nil
  | cons d ds ih =>
    refine List.pairwise_cons.2 ⟨fun e he => ?_, ih fun m n h => hrise _ _ (Nat.succ_lt_succ h)⟩
    obtain ⟨d', -, n, -, rfl⟩ := mem_events he
    exact hrise _ _ (Nat.succ_pos n)

theorem Stamp.calm_events {stamp : Stamp} {ids : Nat → EventId} {ds : List Draft}
    (hrise : ∀ m n, m < n → (ids m).number < (ids n).number)
    (h : ds.Pairwise fun a b => a.effective ≤ b.effective) : Calm (stamp.events ids ds) where
  inOrder := by
    have hboth : (stamp.events ids ds).Pairwise fun a b =>
        a.effective ≤ b.effective ∧ a.id.number < b.id.number :=
      (pairwise_events stamp ids h).imp₂ (fun _ _ => And.intro) (stamp.pairwise_number hrise ds)
    refine hboth.imp_of_mem fun {a b} ha hb ⟨hle, hlt⟩ => ?_
    obtain ⟨d, -, k, -, rfl⟩ := mem_events ha
    obtain ⟨d', -, k', -, rfl⟩ := mem_events hb
    -- before they are stored no event has an ordering, so at one date the identifiers decide
    have hrise : (ids k).number ≤ (ids k').number := Nat.le_of_lt hlt
    rcases Int.lt_or_eq_of_le hle with hdate | hdate
    · have hbefore : d.effective < d'.effective := hdate
      simp [Event.le, event, hbefore]
    · have hsame : d.effective = d'.effective := Instant.ext hdate
      simp [Event.le, event, hsame, hrise]
  nothingLost := by
    intro e he c hc hlost
    obtain ⟨_, -, k, -, rfl⟩ := mem_events he
    obtain ⟨_, -, k', -, rfl⟩ := mem_events hc
    exact Nat.lt_irrefl 0 (Event.isSupersededBy_iff.1 hlost).1

theorem Catalog.alignCases_forward {catalog : Catalog} {now : Instant} {m : SubscriptionMigration}
    {events : List TimedPayload} (hm : m.EndsForward)
    (h : catalog.alignCases m.cases now = .ok events) :
    events.Pairwise fun a b => a.effective ≤ b.effective := by
  obtain ⟨last, aligned, place, ending, hlast, haligned, hending, rfl⟩ := alignCases_eq_ok h
  obtain ⟨haligned, hbefore⟩ := alignEach_ascending haligned
  obtain ⟨hends, hbehind⟩ : ending.Pairwise (fun a b => a.effective ≤ b.effective) ∧
      ∀ e ∈ ending, last.effective ≤ e.effective := by
    rcases alignEnd_date hending with ⟨f, hf, rfl⟩ | ⟨-, hends, hbehind⟩
    · exact ⟨List.pairwise_singleton _ _, by simpa using hm last hlast f hf⟩
    · exact ⟨hends, hbehind⟩
  exact List.pairwise_append.2 ⟨haligned, hends,
    fun a ha b hb => Int.le_trans (hbefore last hlast a ha) (hbehind b hb)⟩

namespace ImportContext

variable {cx : ImportContext} {bundle : BundleId} {key : String} {bundleStart : Option Instant}
  {supply : Supply} {m : SubscriptionMigration} {sub : Subscription}

theorem planSubscription_draws (h : cx.planSubscription bundle key bundleStart supply m = .ok sub)
    (hrise : ∀ m n, m < n → (supply.event m).number < (supply.event n).number)
    (hm : m.InMillis) (hends : m.EndsForward) :
    ∃ id start es, m.Draws start es ∧ sub.events = cx.addMarker id sub.id m start es := by
  have hstarts := planSubscription_starts h
  obtain ⟨cases, start, bundleStart', hcases, hstart, rfl⟩ := planSubscription_eq_ok h
  rw [starts_addMarker] at hstarts
  obtain ⟨first, rest, rfl, hhead, -, -⟩ := Catalog.alignCases_starts hcases
  have hdrafts : ((first :: rest).map fun e =>
      (⟨supply.subscription 0, e.effective, e.payload⟩ : Draft)).Pairwise
        fun a b => a.effective ≤ b.effective :=
    List.pairwise_map.2 (Catalog.alignCases_forward hends hcases)
  have hcalm : Calm (cx.stamp.events supply.event _) := Stamp.calm_events hrise hdrafts
  have hevents {e : Event} (he : e ∈ cx.stamp.events supply.event ((first :: rest).map fun e =>
      (⟨supply.subscription 0, e.effective, e.payload⟩ : Draft))) :
      ∃ c ∈ first :: rest, e.type = c.payload.type ∧ e.effective = c.effective := by
    obtain ⟨d, hd, k, -, rfl⟩ := Stamp.mem_events he
    obtain ⟨c, hc, rfl⟩ := List.mem_map.1 hd
    exact ⟨c, hc, rfl, rfl⟩
  refine ⟨_, start, _, ⟨hhead.trans (by simpa using hstart), Stamp.pairwise_events _ _ hdrafts,
    hcalm, fun t ht => ?_, fun e he => ?_, fun e he => ?_⟩, rfl⟩
  · obtain ⟨e, he, hstart, hdate⟩ := mem_starts.1 (hstarts ▸ List.mem_singleton_self start)
    rw [reached, hcalm.effectiveEvents_eq]
    refine target_isSome_through fun hnone => ?_
    have hno := starts_eq_nil.1 hnone e (List.mem_filter.2 ⟨he, decide_eq_true (hdate ▸ ht)⟩)
    rw [hstart] at hno
    cases hno
  · obtain ⟨c, hc, htype, -⟩ := hevents he
    exact htype ▸ (Catalog.alignCases_type hcases).1 c hc
  · obtain ⟨c, hc, -, hdate⟩ := hevents he
    have hmillis : c.effective.floorMillis = c.effective :=
      Catalog.alignCases_dated Duration.keeps_millis hm hcases c hc
    rw [hdate, hmillis]

end ImportContext

/-! ## Stored events -/

section Laid

variable {n v : Nat}

theorem Laid.settled (h : Laid n fs (es.map (·, v)))
    (hord : fs.Pairwise fun a b => a.ordering < b.ordering)
    (hdate : es.Pairwise fun a b => a.effective ≤ b.effective)
    (hdown : ∀ e ∈ es, e.effective.RoundsDown) (htypes : ∀ e ∈ es, e.type ≠ .uncancel) :
    Settled fs :=
  .of_ascending hord (h.ascending hdate hdown) fun f hf => by
    obtain ⟨e, he, htype⟩ := h.mem_type hf
    exact htype ▸ htypes e he

theorem Laid.reached_eq (h : Laid n fs (es.map (·, v))) (hsettled : Settled fs) (t : Instant) :
    reached fs t = Cursor.start.through (es.filter (·.effective.floorMillis ≤ t)) := by
  rw [reached, hsettled.effectiveEvents_eq]
  exact Cursor.through_congr (h.map_payload_filter t) _

theorem Laid.exists_around (h : Laid n fs ((front ++ marker :: back).map (·, v))) :
    ∃ ffront k fback, fs = ffront ++ marker.filed v k :: fback ∧
      (∀ f ∈ ffront, ∃ e ∈ front, ∃ k, f = e.filed v k) ∧
      ∀ f ∈ fback, ∃ e ∈ back, ∃ k, f = e.filed v k := by
  have hfront := List.forall₂_take_append fs front (marker :: back) h.forall₂
  have hrest := List.forall₂_drop_append fs front (marker :: back) h.forall₂
  obtain ⟨_, fback, ⟨k, -, rfl⟩, hback, hdrop⟩ := List.forall₂_cons_right_iff.1 hrest
  refine ⟨fs.take front.length, k, fback, ?_, fun f hf => ?_, fun f hf => ?_⟩
  · rw [← hdrop, List.take_append_drop]
  · obtain ⟨e, he, k, -, rfl⟩ := exists_right_of_forall₂ hfront hf
    exact ⟨e, he, k, rfl⟩
  · obtain ⟨e, he, k, -, rfl⟩ := exists_right_of_forall₂ hback hf
    exact ⟨e, he, k, rfl⟩

end Laid

namespace SubscriptionMigration

/-- The marker for billing is there if it has to be, and stands as it should. -/
structure BilledIn (m : SubscriptionMigration) (sub : Subscription) : Prop where
  /-- There is one if the subscription has been paid for until a date at which it has started and is
  not cancelled. -/
  marked_iff : (∃ e ∈ sub.events, e.type = .migrateBilling) ↔
    ∃ c start, m.chargedThrough = some c ∧ m.firstDate? = some start ∧ start ≤ c ∧
      sub.isCancelledAt c = false
  /-- Then it is the only one, at that date, before all else that happens then. It names the
  position of the subscription, and no transition depends on it. -/
  marker : ∀ e ∈ sub.events, e.type = .migrateBilling →
    ∃ front back target, sub.events = front ++ e :: back ∧
      (∀ f ∈ front ++ back, f.type ≠ .migrateBilling ∧ (f.effective = e.effective → e.Before f)) ∧
      m.chargedThrough = some e.effective ∧ e.payload = .migrateBilling target ∧
      sub.targetAt? e.effective = some target ∧
      transitions (front ++ back) = transitions sub.events

namespace Draws

variable {m : SubscriptionMigration} {start : Instant} {n v : Nat}

theorem addMarker_cases (h : m.Draws start es) (cx : ImportContext) (id : EventId)
    (i : SubscriptionId) :
    (cx.addMarker id i m start es = es ∧
        ∀ c, m.chargedThrough = some c → start ≤ c → (reached es c).cancelled = true) ∨
      ∃ c target front back, m.chargedThrough = some c ∧ start ≤ c ∧
        reached es c = ⟨some target, false⟩ ∧ es = front ++ back ∧
        (∀ e ∈ front, e.effective < c) ∧ (∀ e ∈ back, c ≤ e.effective) ∧
        cx.addMarker id i m start es =
          front ++ cx.stamp.event id ⟨i, c, .migrateBilling target⟩ :: back := by
  unfold ImportContext.addMarker
  cases hcharged : m.chargedThrough with
  | none => exact .inl ⟨rfl, fun c hc => by cases hc⟩
  | some c =>
    simp only [billingMarker?_eq (h.opens c)]
    by_cases hdue : start ≤ c ∧ (reached es c).cancelled = false
    · obtain ⟨target, htarget⟩ := Option.isSome_iff_exists.1 (h.opens c hdue.1)
      have hreached : reached es c = ⟨some target, false⟩ := by rw [← htarget, ← hdue.2]
      obtain ⟨front, back, hsplit, hfront, hback, hmarked⟩ := ImportContext.exists_withMarker
        h.ascending (cx.stamp.event id ⟨i, c, .migrateBilling target⟩)
      refine .inr ⟨c, target, front, back, rfl, hdue.1, hreached, hsplit, hfront, hback, ?_⟩
      rw [if_pos hdue, htarget]
      exact hmarked
    · rw [if_neg hdue]
      refine .inl ⟨rfl, fun c' hc' hle => ?_⟩
      cases hc'
      exact Bool.eq_true_of_not_eq_false fun hlive => hdue ⟨hle, hlive⟩

/-- With its marker the plan is by date still, and takes no cancellation back. -/
theorem addMarker_roundsDown (h : m.Draws start es) (hpaid : m.PaidInMillis) (cx : ImportContext)
    (id : EventId) (i : SubscriptionId) :
    ∀ e ∈ cx.addMarker id i m start es, e.effective.RoundsDown := by
  have hown : ∀ e ∈ es, e.effective.RoundsDown :=
    fun e he => Instant.roundsDown_of_floorMillis (h.inMillis e he)
  rcases h.addMarker_cases cx id i with
    ⟨hnone, -⟩ | ⟨c, target, front, back, hcharged, -, -, rfl, -, -, hmarked⟩
  · rw [hnone]
    exact hown
  · obtain ⟨hfront, hback⟩ := List.forall_mem_append.1 hown
    rw [hmarked]
    exact List.forall_mem_append.2 ⟨hfront, List.forall_mem_cons.2
      ⟨Instant.roundsDown_of_floorMillis (hpaid c hcharged), hback⟩⟩

theorem addMarker_ascending (h : m.Draws start es) (cx : ImportContext) (id : EventId)
    (i : SubscriptionId) :
    (cx.addMarker id i m start es).Pairwise (fun a b => a.effective ≤ b.effective) ∧
      ∀ e ∈ cx.addMarker id i m start es, e.type ≠ .uncancel := by
  rcases h.addMarker_cases cx id i with
    ⟨hnone, -⟩ | ⟨c, target, front, back, -, -, -, rfl, hfront, hback, hmarked⟩
  · rw [hnone]
    exact ⟨h.ascending, fun e he => (h.types e he).1⟩
  · obtain ⟨hascending, hrest, hcross⟩ := List.pairwise_append.1 h.ascending
    rw [hmarked]
    refine ⟨List.pairwise_append.2 ⟨hascending, List.pairwise_cons.2 ⟨hback, hrest⟩,
      fun a ha e he => ?_⟩, fun e he => ?_⟩
    · rcases List.mem_cons.1 he with rfl | he
      · exact Int.le_of_lt (hfront a ha)
      · exact hcross a ha e he
    · rcases List.mem_append.1 he with he | he
      · exact (h.types e (List.mem_append_left _ he)).1
      · rcases List.mem_cons.1 he with rfl | he
        · exact fun h => by cases h
        · exact (h.types e (List.mem_append_right _ he)).1

theorem reached_eq (h : m.Draws start es) (t : Instant) :
    reached es t = Cursor.start.through (es.filter (·.effective.floorMillis ≤ t)) := by
  have hmillis : es.filter (·.effective.floorMillis ≤ t) = es.filter (·.effective ≤ t) :=
    List.filter_congr fun e he => by rw [h.inMillis e he]
  rw [reached, h.calm.effectiveEvents_eq, hmillis]

theorem reached_laid (h : m.Draws start (front ++ back)) (htype : marker.type = .migrateBilling)
    (hlaid : Laid n fs ((front ++ marker :: back).map (·, v))) (hsettled : Settled fs)
    (t : Instant) : reached fs t = reached (front ++ back) t := by
  rw [hlaid.reached_eq hsettled, h.reached_eq, Cursor.through_marker htype]

theorem unmarked (h : m.Draws start es) {sub : Subscription}
    (hlaid : Laid n sub.events (es.map (·, v))) (hsettled : Settled sub.events)
    (hdue : ∀ c, m.chargedThrough = some c → start ≤ c → (reached es c).cancelled = true) :
    m.BilledIn sub := by
  have hnone : ∀ f ∈ sub.events, f.type ≠ .migrateBilling := fun f hf => by
    obtain ⟨e, he, htype⟩ := hlaid.mem_type hf
    exact htype ▸ (h.types e he).2
  refine ⟨⟨fun ⟨f, hf, htype⟩ => absurd htype (hnone f hf), ?_⟩,
    fun f hf htype => absurd htype (hnone f hf)⟩
  rintro ⟨c, start', hcharged, hfirst, hle, hlive⟩
  obtain rfl : start = start' := Option.some.inj (h.first.symm.trans hfirst)
  rw [Subscription.isCancelledAt_eq, hlaid.reached_eq hsettled, ← h.reached_eq,
    hdue c hcharged hle] at hlive
  cases hlive

/-- What is stored around a marker is no marker, and the marker goes before whatever else happens
at its date. -/
theorem around (h : m.Draws start (front ++ back)) {ffront fback : List Event} {k : Nat}
    (hmillis : marker.effective.floorMillis = marker.effective)
    (hfront : ∀ e ∈ front, e.effective < marker.effective)
    (hffront : ∀ f ∈ ffront, ∃ e ∈ front, ∃ k, f = e.filed v k)
    (hfback : ∀ f ∈ fback, ∃ e ∈ back, ∃ k, f = e.filed v k)
    (hord : (ffront ++ marker.filed v k :: fback).Pairwise fun a b => a.ordering < b.ordering) :
    ∀ f ∈ ffront ++ fback, f.type ≠ .migrateBilling ∧
      (f.effective = (marker.filed v k).effective → (marker.filed v k).Before f) := by
  intro f hf
  rcases List.mem_append.1 hf with hf | hf
  · obtain ⟨e, he, k', rfl⟩ := hffront f hf
    have hmem : e ∈ front ++ back := List.mem_append_left _ he
    -- whole milliseconds are stored as they are, so an earlier date remains an earlier one
    refine ⟨(h.types e hmem).2, fun hat => ?_⟩
    rw [Event.filed_effective, Event.filed_effective, h.inMillis e hmem, hmillis] at hat
    exact absurd (hat ▸ hfront e he) (Int.lt_irrefl _)
  · obtain ⟨e, he, k', rfl⟩ := hfback f hf
    refine ⟨(h.types e (List.mem_append_right _ he)).2, fun hat => .inr ⟨hat.symm, ?_⟩⟩
    exact (List.pairwise_cons.1 (List.pairwise_append.1 hord).2.1).1 _ hf

theorem marked (h : m.Draws start (front ++ back)) (hpaid : m.PaidInMillis)
    (hcharged : m.chargedThrough = some marker.effective) (hle : start ≤ marker.effective)
    {target : Target} (hreached : reached (front ++ back) marker.effective = ⟨some target, false⟩)
    (hfront : ∀ e ∈ front, e.effective < marker.effective)
    (hpayload : marker.payload = .migrateBilling target)
    {sub : Subscription} (hlaid : Laid n sub.events ((front ++ marker :: back).map (·, v)))
    (hord : sub.events.Pairwise fun a b => a.ordering < b.ordering)
    (hsettled : Settled sub.events) : m.BilledIn sub := by
  have htype : marker.type = .migrateBilling := by rw [Event.type, hpayload]; rfl
  have hmillis := hpaid marker.effective hcharged
  have hsame := h.reached_laid htype hlaid hsettled
  obtain ⟨ffront, k, fback, hsplit, hffront, hfback⟩ := hlaid.exists_around
  have hothers := h.around hmillis hfront hffront hfback (hsplit ▸ hord)
  have hdate : (marker.filed v k).effective = marker.effective := hmillis
  refine ⟨⟨fun _ => ⟨marker.effective, start, hcharged, h.first, hle, ?_⟩,
    fun _ => ⟨marker.filed v k, by simp [hsplit], htype⟩⟩, fun e he hbilling => ?_⟩
  · rw [Subscription.isCancelledAt_eq, hsame, hreached]
  · obtain rfl : e = marker.filed v k := by
      rw [hsplit, List.mem_append, List.mem_cons] at he
      rcases he with he | he | he
      · exact absurd hbilling (hothers e (List.mem_append_left _ he)).1
      · exact he
      · exact absurd hbilling (hothers e (List.mem_append_right _ he)).1
    refine ⟨ffront, fback, target, hsplit, hothers, hdate ▸ hcharged, hpayload, ?_, ?_⟩
    · rw [Subscription.targetAt?_eq_reached, hdate, hsame, hreached]
      rfl
    · have hunmarked : Settled (ffront ++ fback) := hsettled.sublist <| by
        rw [hsplit]
        exact (List.Sublist.refl ffront).append (List.sublist_cons_self _ fback)
      rw [transitions, transitions, hsettled.effectiveEvents_eq, hunmarked.effectiveEvents_eq,
        hsplit, transitionsFrom_marker hbilling]

end Draws

end SubscriptionMigration

theorem ImportContext.planSubscription_billed {cx : ImportContext} {bundle : BundleId}
    {key : String} {bundleStart : Option Instant} {supply : Supply} {m : SubscriptionMigration}
    {sub : Subscription} {s : Store} {n : Nat}
    (h : cx.planSubscription bundle key bundleStart supply m = .ok sub)
    (hrise : ∀ m n, m < n → (supply.event m).number < (supply.event n).number)
    (hm : m.InMillis) (hpaid : m.PaidInMillis) (hends : m.EndsForward) (hs : s.Tidy)
    (hlaid : Laid n (s.shown (sub.toSubscriptionRecord.filed 1)) (sub.events.map (·, 1))) :
    m.BilledIn (s.visible (sub.toSubscriptionRecord.filed 1)) := by
  obtain ⟨id, start, es, hdraws, hevents⟩ := planSubscription_draws h hrise hm hends
  obtain ⟨hascending, htypes⟩ := hdraws.addMarker_ascending cx id sub.id
  rw [hevents] at hlaid
  have hdown := hdraws.addMarker_roundsDown hpaid cx id sub.id
  have hread := hlaid.visible_events hs (.of_roundsDown hascending hdown)
  have hord := hread ▸ Store.shown_orderings hs (sub.toSubscriptionRecord.filed 1)
  rw [← hread] at hlaid
  have hsettled := hlaid.settled hord hascending hdown htypes
  rcases hdraws.addMarker_cases cx id sub.id with
    ⟨hnone, hdue⟩ | ⟨c, target, front, back, hcharged, hle, hreached, rfl, hfront, -, hmarked⟩
  · rw [hnone] at hlaid
    exact hdraws.unmarked hlaid hsettled hdue
  · rw [hmarked] at hlaid
    exact hdraws.marked hpaid hcharged hle hreached hfront rfl hlaid hord hsettled

/-- **An import marks for billing.** The subscriptions of each bundle that it describes are stored
with that bundle, and each of them whose last case does not end before it starts is marked as it
should be, if events are given rising identifiers. -/
theorem migrate_marks_billing {s t : Store} (hs : s.Reachable) {e : Engine}
    {context : CallContext} {now : Instant} {migration : AccountMigration} {bundles : List Bundle}
    (hrise : e.ids.EventsRise)
    (hm : ∀ b ∈ migration.bundles, ∀ m ∈ b.subscriptions, m.InMillis ∧ m.PaidInMillis)
    (h : e.migrate context now migration s = (.ok bundles, t)) :
    List.Forall₂ (fun (m : BundleMigration) b => ∃ subs, subs.Perm (t.subscriptionsOf b.id) ∧
      List.Forall₂ (fun (m : SubscriptionMigration) sub => m.EndsForward → m.BilledIn sub)
        m.subscriptions subs) migration.bundles bundles :=
  Engine.migrate_each hs (fun b hb m hm' _ _ _ _ _ ⟨_, _, _, hsupply⟩ hsub ht hlaid hends =>
    ImportContext.planSubscription_billed hsub
      (hsupply ▸ fun _ _ hlt => hrise _ _ _ (Nat.add_lt_add_left hlt _))
      (hm b hb m hm').1 (hm b hb m hm').2 hends ht hlaid) h

namespace Sample

/-- A base plan that has been paid for until its trial ends. -/
def paid : SubscriptionMigration :=
  ⟨.base, [⟨"pistol-monthly", .trial, "DEFAULT", day 0, some (day 30)⟩,
    ⟨"pistol-monthly", .evergreen, "DEFAULT", day 30, none⟩], some (day 30)⟩

end Sample

theorem migrate_marks_billing_sample :
    (Sample.paid.InMillis ∧ Sample.paid.PaidInMillis ∧ Sample.paid.EndsForward) ∧
      ∃ bundles t, Sample.imports Sample.paid = (.ok bundles, t) ∧
        List.Forall₂ (fun (m : BundleMigration) b => ∃ subs, subs.Perm (t.subscriptionsOf b.id) ∧
          List.Forall₂ (fun (m : SubscriptionMigration) sub => m.EndsForward → m.BilledIn sub)
            m.subscriptions subs) [⟨"key", [Sample.paid]⟩] bundles ∧
        (t.subscriptionsOf ⟨1⟩).map (fun sub => sub.events.map (·.type)) =
          [[.migrateEntitlement, .migrateBilling, .phase]] := by
  have hmillis : Sample.paid.InMillis := by decide
  have hpaid : Sample.paid.PaidInMillis := by
    intro c hc
    cases hc
    decide
  have hends : Sample.paid.EndsForward := by
    intro last hlast f hf
    cases hlast
    cases hf
  have hdone : (Sample.imports Sample.paid).1.toOption.isSome = true := by decide +kernel
  have hmarked : ((Sample.imports Sample.paid).2.subscriptionsOf ⟨1⟩).map
      (fun sub => sub.events.map (·.type)) = [[.migrateEntitlement, .migrateBilling, .phase]] := by
    decide +kernel
  refine ⟨⟨hmillis, hpaid, hends⟩, ?_⟩
  cases hres : Sample.imports Sample.paid with
  | mk res t =>
    rw [hres] at hdone hmarked
    cases res with
    | error err => cases hdone
    | ok bundles =>
      exact ⟨bundles, t, rfl, migrate_marks_billing (.refl _) Generator.counting_eventsRise
        (by simp [hmillis, hpaid]) hres,
        hmarked⟩

end Tenure
