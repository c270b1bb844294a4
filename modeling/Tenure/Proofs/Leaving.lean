import Tenure.Proofs.Cancelling

/-!
# What a transfer ends

Behind a transfer the source bundle is over: at once, or when the time that the base plan is paid
for has run out. Whether a subscription is carried over does not matter, and neither does what it
was going to be. Some have ended by that date, some end behind it, and some only start then; the
last are cancelled at their start.

**Theorem (`transfer_ends_source`).** From that date on every subscription of the source that has
started is cancelled. Nobody's state changes at an instant before it, and outside the source nothing
changes at all.

The transfer passes over a subscription that has ended, as a cascade does, and with the same outcome
(`Store.Grows.endsAt`).
-/

namespace Tenure

/-- What ending a bundle at a date leaves of a store. -/
structure Store.Leaves (s t : Store) (b : BundleId) (date : Instant) : Prop where
  ended : ∀ sub ∈ s.subscriptionsOf b, (finalStanding sub.events sub.category).isSome = true →
    ∃ left, t.subscription? sub.id = some left ∧
      ∀ u, date ≤ u → sub.start ≤ u → left.isCancelledAt u = true
  before : ∀ sub ∈ s.subscriptionsOf b, ∃ left, t.subscription? sub.id = some left ∧
    ∀ u, u < date → left.AgreesAt sub u
  others : ∀ i sub, s.subscription? i = some sub → sub.bundle ≠ b → t.subscription? i = some sub

section Growing

variable {s t : Store} {r : SubscriptionRecord} {b : BundleId} {date : Instant}

theorem Store.filter_cancelAll_of_other (hs : s.Tidy) (hr : r ∈ s.records) (hb : r.bundle ≠ b) :
    (cancelAll (s.subscriptionsOf b) date).filter (·.subscription == r.id) = [] := by
  refine filter_key_of_not_mem fun d hd hid => ?_
  obtain ⟨sub, hsub, _, -, rfl⟩ := mem_cancelAll.1 hd
  obtain ⟨q, hq, hqb, rfl⟩ := Store.mem_subscriptionsOf.1 hsub
  obtain rfl := hs.record_unique hq hr hid
  exact hb hqb

/-- The cancellations of all subscriptions of a bundle end it, whatever is written from scratch
besides. -/
theorem Rows.leaves {subs : List Subscription} {stamp : Stamp} {next : Nat → EventId}
    (h : Rows s t id (Store.scratchRecords subs) (Store.scratchEvents subs ++
      s.atVersions (stamp.events next (cancelAll (s.subscriptionsOf b) date))))
    (hs : s.Reachable) (ht : t.Tidy)
    (hown : ∀ sub ∈ subs, ∀ e ∈ sub.events, e.subscription = sub.id)
    (hdate : date.floorMillis = date) : s.Leaves t b date := by
  have htidy := hs.sound.tidy
  have hgrown {r : SubscriptionRecord} (hr : r ∈ s.records) : ∃ fs, s.Grows t r fs ∧
      List.Forall₂ Event.IsOf fs ((cancelAll (s.subscriptionsOf b) date).filter
        (·.subscription == r.id)) := by
    obtain ⟨fs, hgrows, hlaid⟩ := h.grows_beside htidy ht hown hr
    exact ⟨fs, hgrows, hlaid.of_drafts⟩
  constructor
  · intro sub hsub hreplays
    obtain ⟨r, hr, -, rfl⟩ := Store.mem_subscriptionsOf.1 hsub
    obtain ⟨st, hst⟩ := Option.isSome_iff_exists.1 hreplays
    obtain ⟨fs, hgrows, hdrafts⟩ := hgrown hr
    have hid : (s.visible r).id = r.id := rfl
    rw [← hid, filter_cancelAll (hs.sound.tidy.nodup_subscriptionsOf b) hsub] at hdrafts
    exact ⟨t.visible r, h.subscription?_visible ht hr, fun u hle hstart => hgrows.endsAt hs ht hr
      (Store.isRooted_of_standing htidy (hs.rooted r hr) hst) hdrafts
      (Instant.roundsDown_of_floorMillis hdate) hle hstart⟩
  · intro sub hsub
    obtain ⟨r, hr, -, rfl⟩ := Store.mem_subscriptionsOf.1 hsub
    obtain ⟨fs, hgrows, hdrafts⟩ := hgrown hr
    refine ⟨t.visible r, h.subscription?_visible ht hr, fun u hu =>
      hgrows.agreesAt_before htidy ht hdrafts (fun d hd => ?_) hdate hu⟩
    obtain ⟨_, -, day, hday, rfl⟩ := mem_cancelAll.1 (List.mem_filter.1 hd).1
    exact Subscription.le_of_cancelDate? hday
  · intro i sub hfound hb
    obtain ⟨r, hr, rfl, rfl⟩ := (Store.subscription?_eq_some htidy).1 hfound
    obtain ⟨fs, hgrows, hdrafts⟩ := hgrown hr
    rw [Store.filter_cancelAll_of_other htidy hr hb] at hdrafts
    cases hdrafts
    have hshown := hgrows.shown
    rw [List.append_nil] at hshown
    rw [h.subscription?_visible ht hr, id_eq, Store.visible_congr hshown]

end Growing

theorem Store.Reachable.cancelDate_inMillis {s : Store} (hs : s.Reachable) {r : SubscriptionRecord}
    (hr : r ∈ s.records) {request : TransferRequest}
    (hdate : request.date.floorMillis = request.date) :
    (request.cancelDate (s.visible r)).floorMillis = request.cancelDate (s.visible r) := by
  unfold TransferRequest.cancelDate
  split
  next paid hpaid =>
    split
    · exact hdate
    · have hwhole := (hs.sound.tidy.recordDates r hr).chargedThrough paid hpaid
      rw [Instant.floorMillis_later (Instant.roundsDown_of_floorMillis hwhole) hdate, hwhole]
  · exact hdate

/-- **What a transfer ends.** The first base-like subscription that is carried over decides on the
date: that of the transfer, or the later of this and the one until which it is paid for. From then
on every subscription of the source bundle that has started and can be replayed is cancelled. Before
it they are what they were, and subscriptions of other bundles are so for good. -/
theorem transfer_ends_source {s t : Store} (hs : s.Reachable) {e : Engine} {context : CallContext}
    {now : Instant} {request : TransferRequest} {moved : Bundle}
    (hdate : request.date.floorMillis = request.date)
    (h : e.transfer context now request s = (.ok moved, t)) :
    ∃ source base date, s.bundleByKey? request.source request.key = some source ∧
      (request.carried (s.subscriptionsOf source.id)).find? (·.isBaseLike) = some base ∧
      date = (match base.chargedThrough with
        | some paid => if request.cancelImmediately then request.date
          else Instant.later paid request.date
        | none => request.date) ∧
      s.Leaves t source.id date := by
  obtain ⟨source, plan, hsource, hplanned, -, rows⟩ := Engine.transfer_eq_ok hs.sound.unlocked h
  obtain ⟨base, hbase, hsubs, hcancels⟩ := planTransfer_eq_ok hplanned
  refine ⟨source, base, request.cancelDate base, hsource, hbase, rfl, ?_⟩
  have hcarried := (List.mem_filter.1 (List.mem_of_find?_eq_some hbase)).1
  obtain ⟨r, hr, -, rfl⟩ := Store.mem_subscriptionsOf.1 hcarried
  have ht := rows.tidy hs.sound.tidy
  rw [hcancels] at rows
  exact rows.leaves hs ht (hsubs ▸ transferAll_own) (hs.cancelDate_inMillis hr hdate)

namespace Sample

/-- Of the add-ons of a base plan that is paid for until day 40, the one that is there is cancelled
for day 20. The account has another bundle besides. -/
def settled : List Step :=
  paidFor ++ [⟨engine, { caller with requested := some (day 20) }, day 2, .cancel ⟨2⟩⟩,
    step 3 (.createBundle ⟨1⟩ "spare"),
    step 3 (.createSubscription ⟨2⟩ ⟨"pistol", .monthly, "DEFAULT"⟩)]

/-- The base plan goes to another account on day 10, alone. -/
def departure : TransferRequest := ⟨⟨1⟩, ⟨2⟩, "key", day 10, false, false⟩

def departed : Except Error Bundle × Store :=
  engine.transfer caller (day 10) departure (after settled)

end Sample

/-- The source is over on day 40, when an add-on has ended and another has not begun. -/
theorem transfer_ends_source_sample :
    ∃ moved t, Sample.departed = (.ok moved, t) ∧
      (Sample.after Sample.settled).Leaves t ⟨1⟩ (Sample.day 40) ∧
      ((Sample.after Sample.settled).subscriptionsOf ⟨1⟩).map (·.finish?) =
        [none, some (Sample.day 20), none] ∧
      (t.subscriptionsOf ⟨1⟩).map (·.finish?) =
        [some (Sample.day 40), some (Sample.day 20), some (Sample.day 50)] := by
  have hread : ((Sample.after Sample.settled).bundleByKey? ⟨1⟩ "key").map (fun source =>
      (source.id, ((Sample.departure.carried
        ((Sample.after Sample.settled).subscriptionsOf source.id)).find? (·.isBaseLike)).map
          (·.chargedThrough))) =
      some (⟨1⟩, some (some (Sample.day 40))) := by
    decide +kernel
  have hbefore : ((Sample.after Sample.settled).subscriptionsOf ⟨1⟩).map (·.finish?) =
      [none, some (Sample.day 20), none] := by decide +kernel
  have hafter : Sample.departed.1.toOption.isSome = true ∧
      (Sample.departed.2.subscriptionsOf ⟨1⟩).map (·.finish?) =
        [some (Sample.day 40), some (Sample.day 20), some (Sample.day 50)] := by decide +kernel
  cases hres : Sample.departed with
  | mk res t =>
    rw [hres] at hafter
    cases res with
    | error err => cases hafter.1
    | ok moved =>
      obtain ⟨source, base, date, hsource, hbase, rfl, hleaves⟩ :=
        transfer_ends_source (Sample.reachable_after Sample.settled) (by decide) hres
      have hsource : (Sample.after Sample.settled).bundleByKey? ⟨1⟩ "key" = some source := hsource
      rw [hsource, Option.map_some, hbase, Option.map_some, Option.some_inj, Prod.mk.injEq,
        Option.some_inj] at hread
      obtain ⟨hid, hpaid⟩ := hread
      rw [hid, hpaid] at hleaves
      exact ⟨moved, t, rfl, hleaves, hbefore, hafter.2⟩

end Tenure
