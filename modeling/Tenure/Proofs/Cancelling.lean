import Tenure.Proofs.Additions

/-!
# What a cancellation ends

A cancellation takes effect on a date that the catalog's policy gives. From then on the subscription
is cancelled, and with a base plan go the add-ons of the bundle, each from that date or from its own
start on, whichever is later.

**Theorem (`cancel_ends`).** This is all that it does. Nobody's state changes at an instant before
the date, and no other subscription changes at all.

The cascade passes over an add-on that has ended by the date. That is as good as cancelling it, for
a subscription with one start stays ended (`Store.isCancelledAt_of_finish`), whatever was cancelled
and uncancelled before.
-/

namespace Tenure

/-! ## The cascade -/

/-- The subscription hangs off `base`: an add-on in the bundle of a base plan. -/
def Subscription.HangsOff (a base : Subscription) : Prop :=
  base.category = .base ∧ a.bundle = base.bundle ∧ a.category = .addOn

namespace Engine

variable {sub a : Subscription} {subs : List Subscription} {date day : Instant} {d : Draft}

theorem mem_cascade : d ∈ cascade subs date ↔
    ∃ a ∈ subs, a.category = .addOn ∧ ∃ day, a.cancelDate? date = some day ∧
      d = ⟨a.id, day, .cancel⟩ := by
  simp only [cascade_eq, mem_cancelAll, List.mem_filter, beq_iff_eq, and_assoc]

/-- The cancellations that the cancellation of a subscription comes to. -/
def cancelDrafts (sub : Subscription) (subs : List Subscription) (date : Instant) : List Draft :=
  ⟨sub.id, date, .cancel⟩ :: if sub.category == .base then cascade subs date else []

theorem mem_cancelDrafts : d ∈ cancelDrafts sub subs date ↔
    d = ⟨sub.id, date, .cancel⟩ ∨ sub.category = .base ∧ d ∈ cascade subs date := by
  unfold cancelDrafts
  by_cases hbase : sub.category = .base <;> simp [hbase]

theorem le_of_mem_cancelDrafts (hd : d ∈ cancelDrafts sub subs date) :
    d.payload = .cancel ∧ date ≤ d.effective := by
  rcases mem_cancelDrafts.1 hd with rfl | ⟨-, hd⟩
  · exact ⟨rfl, Int.le_refl _⟩
  · obtain ⟨a, -, -, day, hday, rfl⟩ := mem_cascade.1 hd
    exact ⟨rfl, Subscription.le_of_cancelDate? hday⟩

end Engine

/-! ## What is left -/

/-- What cancelling `sub` for a date leaves of a store. -/
structure Store.EndsAt (s t : Store) (sub : Subscription) (date : Instant) : Prop where
  self : ∃ ended, t.subscription? sub.id = some ended ∧
    ∀ u, date ≤ u → ended.isCancelledAt u = true
  addOns : ∀ a ∈ s.subscriptionsOf sub.bundle, a.HangsOff sub →
    (finalStanding a.events a.category).isSome = true →
      ∃ ended, t.subscription? a.id = some ended ∧
        ∀ u, date ≤ u → a.start ≤ u → ended.isCancelledAt u = true
  before : ∀ a ∈ s.subscriptionsOf sub.bundle, ∃ a', t.subscription? a.id = some a' ∧
    ∀ u, u < date → a'.AgreesAt a u
  others : ∀ i, i ≠ sub.id → (∀ a, s.subscription? i = some a → ¬ a.HangsOff sub) →
    t.subscription? i = s.subscription? i

section Growing

variable {s t : Store} {q r : SubscriptionRecord} {fs : List Event} {date u : Instant}
  {ds : List Draft}

theorem Store.Grows.isCancelledAt (h : s.Grows t r fs) (ht : t.Tidy)
    (hdrafts : List.Forall₂ Event.IsOf fs ds) (hcancels : ∀ d ∈ ds, d.payload = .cancel)
    {start : Instant} (hstarts : starts (s.shown r) = [start]) {d : Draft} (hd : d ∈ ds)
    (hstart : start ≤ d.effective.floorMillis) (hu : d.effective.floorMillis ≤ u) :
    (t.visible r).isCancelledAt u = true := by
  have htypes : ∀ f ∈ fs, f.type = .cancel := by
    intro f hf
    obtain ⟨c, hc, hof⟩ := exists_right_of_forall₂ hdrafts hf
    rw [Event.type, hof.payload, hcancels c hc]
    rfl
  obtain ⟨f, hf, hof⟩ := exists_left_of_forall₂ hdrafts hd
  rw [← hof.effective] at hstart hu
  rw [Subscription.isCancelledAt_eq, reached_visible ht, h.shown]
  refine reached_append_cancels h.ids h.rises htypes ?_ hf ?_ hu
  · simp [hstarts]
  · rw [hstarts]
    exact List.forall_mem_singleton.2 hstart

/-- A subscription with one start that is over by a date is cancelled from then on. -/
theorem Store.isCancelledAt_of_finish (hs : s.Tidy) {start : Instant}
    (hstarts : starts (s.shown r) = [start]) {st : Standing}
    (hst : (s.visible r).standingAt date = some st) (hended : st.finish.any (· ≤ date) = true)
    (hu : date ≤ u) : (s.visible r).isCancelledAt u = true := by
  have hcancelled : st.isCancelled = true := by
    obtain ⟨era, -, rfl⟩ := Option.map_eq_some_iff.1 hst
    exact hended
  rw [standingAt_isCancelled hst, reached_visible hs] at hcancelled
  rw [Subscription.isCancelledAt_eq, reached_visible hs]
  exact reached_cancelled_mono (shown_ids hs r) hstarts hcancelled hu

/-- A subscription with a start that is cancelled for a date unless it has ended by then is
cancelled from the date or from its start on. -/
theorem Store.Grows.endsAt (h : s.Grows t r fs) (hs : s.Reachable) (ht : t.Tidy)
    (hr : r ∈ s.records) (hstarts : starts (s.shown r) = [r.start])
    (hdrafts : List.Forall₂ Event.IsOf fs
      (((s.visible r).cancelDate? date).toList.map fun day => ⟨r.id, day, .cancel⟩))
    (hdown : date.RoundsDown) (hdate : date ≤ u) (hstart : r.start ≤ u) :
    (t.visible r).isCancelledAt u = true := by
  have hown := (hs.sound.tidy.recordDates r hr).start
  obtain ⟨finish, hfinish⟩ := standingAt_of_starts (Store.shown_ids hs.sound.tidy r) hstarts
  obtain ⟨st, hst, -⟩ := hfinish r.category date
  have hst : (s.visible r).standingAt date = some st :=
    (Store.standingAt_visible hs.sound.tidy r.category date).trans hst
  by_cases hended : st.finish.any (· ≤ date) = true
  · have hnone : (s.visible r).cancelDate? date = none := by
      rw [Subscription.cancelDate?, hst]
      exact if_pos hended
    rw [hnone] at hdrafts
    cases hdrafts
    have hshown := h.shown
    rw [List.append_nil] at hshown
    rw [Store.visible_congr hshown]
    exact Store.isCancelledAt_of_finish hs.sound.tidy hstarts hst hended hdate
  · have hday := Subscription.cancelDate?_eq_some.2 ⟨st, hst, Bool.eq_false_iff.2 hended, rfl⟩
    rw [hday] at hdrafts
    refine h.isCancelledAt ht hdrafts (fun d hd => ?_) hstarts (List.mem_singleton_self _) ?_ ?_
    · rw [List.mem_singleton.1 hd]
    · show r.start ≤ (Instant.later date r.start).floorMillis
      rw [Instant.floorMillis_later hdown hown]
      exact (Instant.later_le_iff.1 (Int.le_refl _)).2
    · show (Instant.later date r.start).floorMillis ≤ u
      rw [Instant.floorMillis_later hdown hown]
      exact Instant.later_le_iff.2 ⟨Int.le_trans hdown hdate, hstart⟩

theorem Store.Grows.agreesAt_before (h : s.Grows t r fs) (hs : s.Tidy) (ht : t.Tidy)
    (hdrafts : List.Forall₂ Event.IsOf fs ds) (hds : ∀ d ∈ ds, date ≤ d.effective)
    (hdate : date.floorMillis = date) (hu : u < date) : (t.visible r).AgreesAt (s.visible r) u := by
  refine h.agreesAt hs ht fun f hf => ?_
  obtain ⟨d, hd, hof⟩ := exists_right_of_forall₂ hdrafts hf
  rw [hof.effective]
  exact Int.lt_of_lt_of_le hu
    (hdate ▸ Instant.floorMillis_mono (Instant.roundsDown_of_floorMillis hdate) (hds d hd))

theorem Engine.filter_cancelDrafts (hs : s.Sound) (hq : q ∈ s.records) (hr : r ∈ s.records)
    (hoff : (s.visible r).HangsOff (s.visible q)) :
    (cancelDrafts (s.visible q) (s.subscriptionsOf q.bundle) date).filter
        (·.subscription == r.id) =
      ((s.visible r).cancelDate? date).toList.map fun day => ⟨r.id, day, .cancel⟩ := by
  obtain ⟨hbase, hbundle, haddOn⟩ := hoff
  have hne : q.id ≠ r.id := fun hid => by
    obtain rfl := hs.tidy.record_unique hq hr hid
    rw [hbase] at haddOn
    cases haddOn
  rw [cancelDrafts, List.filter_cons_of_neg (by simpa using hne), if_pos (beq_iff_eq.2 hbase)]
  exact filter_cascade hs hr hbundle haddOn

/-- The cancellations of a subscription and its add-ons leave what they should. -/
theorem Rows.endsAt {stamp : Stamp} {next : Nat → EventId}
    (h : Rows s t id [] (s.atVersions (stamp.events next
      (Engine.cancelDrafts (s.visible q) (s.subscriptionsOf q.bundle) date))))
    (hs : s.Reachable) (ht : t.Tidy) (hq : q ∈ s.records) (hdate : date.floorMillis = date)
    {start : Instant} (hstarts : starts (s.shown q) = [start]) (hstart : start ≤ date) :
    s.EndsAt t (s.visible q) date := by
  have htidy := hs.sound.tidy
  constructor
  · refine ⟨t.visible q, h.subscription?_visible ht hq, fun u hu => ?_⟩
    obtain ⟨fs, hgrows, hdrafts⟩ := h.grows_drafts htidy ht hq
    refine hgrows.isCancelledAt ht hdrafts (fun d hd => ?_) hstarts
      (List.mem_filter.2 ⟨Engine.mem_cancelDrafts.2 (.inl rfl), beq_self_eq_true q.id⟩) ?_ ?_
    · exact (Engine.le_of_mem_cancelDrafts (List.mem_filter.1 hd).1).1
    · exact hdate.symm ▸ hstart
    · exact hdate.symm ▸ hu
  · intro a ha hoff hreplays
    obtain ⟨r, hr, -, rfl⟩ := Store.mem_subscriptionsOf.1 ha
    obtain ⟨st, hst⟩ := Option.isSome_iff_exists.1 hreplays
    obtain ⟨fs, hgrows, hdrafts⟩ := h.grows_drafts htidy ht hr
    rw [Engine.filter_cancelDrafts hs.sound hq hr hoff] at hdrafts
    exact ⟨t.visible r, h.subscription?_visible ht hr, fun u hu hstart => hgrows.endsAt hs ht hr
      (Store.isRooted_of_standing htidy (hs.rooted r hr) hst) hdrafts
      (Instant.roundsDown_of_floorMillis hdate) hu hstart⟩
  · intro a ha
    obtain ⟨r, hr, -, rfl⟩ := Store.mem_subscriptionsOf.1 ha
    obtain ⟨fs, hgrows, hdrafts⟩ := h.grows_drafts htidy ht hr
    refine ⟨t.visible r, h.subscription?_visible ht hr, fun u hu =>
      hgrows.agreesAt_before htidy ht hdrafts (fun d hd => ?_) hdate hu⟩
    exact (Engine.le_of_mem_cancelDrafts (List.mem_filter.1 hd).1).2
  · intro i hi hnot
    refine h.subscription?_eq htidy fun f hf hown => ?_
    obtain ⟨d, hd, _, -, rfl⟩ := Stamp.mem_events hf
    rcases Engine.mem_cancelDrafts.1 hd with rfl | ⟨hbase, hd⟩
    · exact hi hown.symm
    · obtain ⟨a, ha, haddOn, day, -, rfl⟩ := Engine.mem_cascade.1 hd
      obtain ⟨r, hr, hbundle, rfl⟩ := Store.mem_subscriptionsOf.1 ha
      exact hnot _ ((Store.subscription?_eq_some htidy).2 ⟨r, hr, hown, rfl⟩)
        ⟨hbase, hbundle, haddOn⟩

end Growing

/-- **What a cancellation ends.** From its date on the subscription is cancelled, and with a base
plan every add-on of the bundle that has started by then and can be replayed. Before that date all
subscriptions of the bundle are what they were, and other subscriptions are so for good. -/
theorem cancel_ends {s t : Store} (hs : s.Reachable) {e : Engine} {context : CallContext}
    {now : Instant} {i : SubscriptionId} {ended : Subscription}
    (hdate : (context.requested.getD now).floorMillis = context.requested.getD now)
    (h : e.cancel context now i s = (.ok ended, t)) :
    ∃ sub current source policy, s.subscription? i = some sub ∧ t.subscription? i = some ended ∧
      Engine.liveTarget sub (context.requested.getD now) = .ok current ∧
      e.catalog.position current (context.requested.getD now) = .ok source ∧
      e.catalog.cancelPolicy source (context.requested.getD now) = .ok policy ∧
      s.EndsAt t sub (Engine.policyDate policy sub (context.requested.getD now)) := by
  have htidy := hs.sound.tidy
  have hback := Engine.onSubscription_eq_ok hs.sound.unlocked h
  have hrun : Step.run ⟨e, context, now, .cancel i⟩ s = outcome (.ok ended, t) :=
    congrArg outcome h
  obtain ⟨-, hwrote⟩ := Step.wrote_of_ok hs.sound hrun (by simp)
  have htidy' := (hwrote.sound hs.sound).tidy
  cases hwrote with
  | cancel planned rows =>
  obtain ⟨sub, current, policy, hsub, rfl, hlive, ⟨source, hsource, hpolicy⟩, rfl⟩ :=
    Engine.cancelEvents_eq_ok planned
  obtain ⟨q, hq, rfl, rfl⟩ := (Store.subscription?_eq_some htidy).1 hsub
  refine ⟨s.visible q, current, source, policy, hsub, hback, hlive, hsource, hpolicy, ?_⟩
  obtain ⟨st, hst, hstart, -⟩ := Engine.liveTarget_eq_ok hlive
  exact rows.endsAt hs htidy' hq (hs.policyDate_inMillis hq policy hdate)
    (Store.starts_of_standing htidy (hs.rooted q hq) hst)
    (Int.le_trans hstart (Engine.le_policyDate policy _ _))

namespace Sample

/-- An engine by whose catalog everything lasts as long as it is paid for. -/
def patient : Engine := { engine with catalog := Catalog.Sample.catalog .endOfTerm }

/-- A base plan that is paid for until day 40, and two add-ons, one from day 0 and one from day 50
on. -/
def paidFor : List Step :=
  [step 0 (.createBundle ⟨1⟩ "key"),
    step 0 (.createSubscription ⟨1⟩ ⟨"assault-rifle", .monthly, "DEFAULT"⟩),
    step 0 (.createSubscription ⟨1⟩ ⟨"telescopic-scope", .monthly, "DEFAULT"⟩),
    ⟨engine, { caller with requested := some (day 50) }, day 0,
      .createSubscription ⟨1⟩ ⟨"telescopic-scope", .monthly, "DEFAULT"⟩⟩,
    step 1 (.setChargedThrough ⟨1⟩ (some (day 40)))]

end Sample

/-- Cancelled on day 10, the base plan takes its add-ons with it on day 40. -/
theorem cancel_ends_sample :
    ∃ sub ended t, (Sample.after Sample.paidFor).subscription? ⟨1⟩ = some sub ∧
      Sample.patient.cancel Sample.caller (Sample.day 10) ⟨1⟩ (Sample.after Sample.paidFor) =
        (.ok ended, t) ∧
      (Sample.after Sample.paidFor).EndsAt t sub (Sample.day 40) ∧
      ((Sample.after Sample.paidFor).subscriptionsOf sub.bundle).map
        (fun a => (a.category, a.start)) =
          [(.base, Sample.day 0), (.addOn, Sample.day 0), (.addOn, Sample.day 50)] := by
  have hread : ((Sample.after Sample.paidFor).subscription? ⟨1⟩).map
      (fun sub => (sub.chargedThrough, ((Sample.after Sample.paidFor).subscriptionsOf
        sub.bundle).map fun a => (a.category, a.start))) =
        some (some (Sample.day 40),
          [(.base, Sample.day 0), (.addOn, Sample.day 0), (.addOn, Sample.day 50)]) := by
    decide +kernel
  have hdone : ((Sample.patient.cancel Sample.caller (Sample.day 10) ⟨1⟩
      (Sample.after Sample.paidFor)).1.toOption).isSome = true := by decide +kernel
  cases hres : Sample.patient.cancel Sample.caller (Sample.day 10) ⟨1⟩
      (Sample.after Sample.paidFor) with
  | mk res t =>
    rw [hres] at hdone
    cases res with
    | error err => cases hdone
    | ok ended =>
      obtain ⟨sub, _, _, policy, hsub, -, -, -, hpolicy, hends⟩ :=
        cancel_ends (Sample.reachable_after _) (by decide) hres
      rw [hsub, Option.map_some, Option.some_inj, Prod.mk.injEq] at hread
      obtain ⟨hpaid, hbundle⟩ := hread
      obtain rfl : ActionPolicy.endOfTerm = policy := Except.ok.inj hpolicy
      have hdate : Engine.policyDate .endOfTerm sub (Sample.day 10) = Sample.day 40 := by
        simp only [Engine.policyDate, hpaid]
        decide
      exact ⟨sub, ended, t, hsub, rfl, hdate ▸ hends, hbundle⟩

end Tenure
