import Tenure.Proofs.Positions
import Tenure.Proofs.TermSteps

/-!
# What a transfer carries over

The copy that a transfer makes of a subscription opens with a position and takes along the changes
and phases behind it. So it stands where the original would stand without its cancellations if it
opens at the right date and on the right position, and only then (`Subscription.carriedTo_iff`).

A subscription that has started opens where it stands, and nothing of it is lost. One that has not
is opened by its next event. That is the event that starts it, unless there is an uncancellation for
an earlier date, and it leads to the position held then, unless a change or phase of the same
instant does (`Subscription.StartsNext`). For a subscription that starts in another way the transfer
makes no copy, or one that goes astray (`transfer_keeps_iff`).
-/

namespace Tenure

/-! ## Copies -/

namespace Subscription

variable {sub moved : Subscription} {date start a u : Instant} {target : Target}

/-- The copy has what the subscription has: it starts at the date of the transfer, or with the
subscription if that is later, and from then on it stands where the subscription would stand
without its cancellations. -/
structure CarriedTo (sub : Subscription) (date : Instant) (copy : Subscription) : Prop where
  category : copy.category = sub.category
  alignStart : copy.alignStart = sub.alignStart
  start : copy.start = Instant.later date sub.start
  standing : ∀ t, (copy.standingAt t).map (·.start) = some copy.start
  target : ∀ t, copy.start ≤ t → copy.targetAt? t = sub.uncancelled.targetAt? t

/-- The next event after `date` lies at the start of the subscription, and leads to the position
that the subscription holds there. -/
def StartsNext (sub : Subscription) (date : Instant) : Prop :=
  ∃ first, sub.effectiveEvents.find? (date < ·.effective) = some first ∧
    first.effective = sub.start ∧ first.payload.target? = sub.uncancelled.targetAt? sub.start

/-- Behind all starts, the course goes on with the changes and phases ahead. -/
theorem courseAt_ahead (hids : (sub.events.map (·.id)).Nodup)
    (hstarts : ∀ d ∈ starts sub.events, d ≤ a) (h : a ≤ u) :
    courseAt sub.events u = leads (courseAt sub.events a)
      (((sub.ahead a).filter (·.effective ≤ u)).map (·.payload)) := by
  rw [courseAt_of_le h, effectiveEvents_moves hids, ahead, List.filter_filter, List.filter_filter]
  congr 2
  refine List.filter_congr fun e he => ?_
  by_cases hlater : a < e.effective
  · have hno : e.type.startsSubscription = false := Bool.eq_false_iff.2 fun hstart =>
      absurd (hstarts _ (mem_starts.2 ⟨e, (mem_effectiveEvents.1 he).1, hstart, rfl⟩))
        (Int.not_le.2 hlater)
    simp [Event.isMove, hno, hlater]
  · simp [hlater]

theorem floorMillis_of_opening (hdates : ∀ e ∈ sub.events, e.effective.floorMillis = e.effective)
    (hdate : date.floorMillis = date) (hopen : sub.opening? date = some (start, target)) :
    start.floorMillis = start := by
  unfold opening? at hopen
  split at hopen
  · cases hopen
    exact hdate
  · obtain ⟨first, hfirst, hopen⟩ := Option.bind_eq_some_iff.1 hopen
    obtain ⟨_, -, hopen⟩ := Option.map_eq_some_iff.1 hopen
    cases hopen
    exact hdates _ (mem_effectiveEvents.1 (List.mem_of_find?_eq_some hfirst)).1

section Copies

variable {stamp : Stamp} {bundle : BundleId} {supply : Supply} {t : Store} {n : Nat}

theorem transferred?_type (h : sub.transferred? stamp bundle date supply = some moved) :
    ∀ e ∈ moved.events, e.type ≠ .cancel := by
  obtain ⟨start, target, -, rfl⟩ := transferred?_eq_some h
  intro e he
  obtain ⟨d, hd, k, -, rfl⟩ := Stamp.mem_events he
  rcases List.mem_cons.1 hd with rfl | hd
  · nofun
  · obtain ⟨f, hf, rfl⟩ := List.mem_map.1 hd
    intro hcancel
    have hf := (List.mem_filter.1 hf).2
    rw [show f.type = .cancel from hcancel] at hf
    simp at hf

/-- A copy stands where the events ahead lead from the position that it opens with. -/
theorem targetAt?_copy (h : sub.transferred? stamp bundle date supply = some moved)
    (hdates : ∀ e ∈ sub.events, e.effective.floorMillis = e.effective) (ht : t.Tidy)
    (hlaid : Laid n (t.shown (moved.toSubscriptionRecord.filed 1)) (moved.events.map (·, 1)))
    (hopen : sub.opening? date = some (start, target)) (hstart : start.floorMillis = start)
    (hu : start ≤ u) : (t.visible (moved.toSubscriptionRecord.filed 1)).targetAt? u =
      leads (some target) (((sub.ahead start).filter (·.effective ≤ u)).map (·.payload)) := by
  have hascending := (transferred?_ascending h).sublist (List.filter_sublist (p := Event.isMove))
  have hcancels : ∀ f ∈ t.shown (moved.toSubscriptionRecord.filed 1), f.type ≠ .cancel := by
    intro f hf
    obtain ⟨e, he, htype⟩ := hlaid.mem_type hf
    exact htype ▸ transferred?_type h e he
  obtain ⟨start', target', hopen', rfl⟩ := transferred?_eq_some h
  obtain ⟨rfl, rfl⟩ := Prod.mk.inj (Option.some.inj (hopen.symm.trans hopen'))
  have hdown : ∀ d ∈ (⟨supply.subscription 0, start, .transfer target⟩ :: (sub.ahead start).map
      fun e => (⟨supply.subscription 0, e.effective, e.payload⟩ : Draft)),
        d.effective.RoundsDown := by
    refine List.forall_mem_cons.2 ⟨Instant.roundsDown_of_floorMillis hstart,
      List.forall_mem_map.2 fun e he => Instant.roundsDown_of_floorMillis ?_⟩
    exact hdates e (mem_effectiveEvents.1 (List.mem_filter.1 he).1).1
  rw [Store.targetAt?_visible ht, standingAt_bind_target?_of_no_cancel (Store.shown_ids ht _)
    hcancels, hlaid.courseAt_eq (Store.shown_orderings ht _) hascending
      fun e he => Stamp.events_dated hdown e (List.mem_filter.1 he).1]
  have hahead : (((sub.ahead start).map fun e =>
      (⟨supply.subscription 0, e.effective, e.payload⟩ : Draft)).filter
        fun d => d.effective.floorMillis ≤ u).map (·.payload) =
      ((sub.ahead start).filter (·.effective ≤ u)).map (·.payload) := by
    rw [List.filter_map, List.map_map]
    refine congrArg (List.map _) (List.filter_congr fun e he => ?_)
    have hmem := (mem_effectiveEvents.1 (List.mem_filter.1 he).1).1
    simp only [Function.comp_apply, hdates e hmem]
  rw [Stamp.map_payload_filter_events _ _ (fun d => d.floorMillis ≤ u),
    List.filter_cons_of_pos (by simpa [hstart] using hu), List.map_cons, leads_cons, hahead]
  rfl

/-- **What it takes to be carried over**: the copy opens at the right date and on the right
position. -/
theorem carriedTo_iff (h : sub.transferred? stamp bundle date supply = some moved)
    (hids : (sub.events.map (·.id)).Nodup)
    (hdates : ∀ e ∈ sub.events, e.effective.floorMillis = e.effective)
    (hstarts : ∀ d ∈ starts sub.events, d = sub.start)
    (halign : sub.alignStart.floorMillis = sub.alignStart) (ht : t.Tidy)
    (hlaid : Laid n (t.shown (moved.toSubscriptionRecord.filed 1)) (moved.events.map (·, 1)))
    (hopen : sub.opening? date = some (start, target)) (hdate : date.floorMillis = date) :
    sub.CarriedTo date (t.visible (moved.toSubscriptionRecord.filed 1)) ↔
      start = Instant.later date sub.start ∧ courseAt sub.events start = some target := by
  have hfloor := floorMillis_of_opening hdates hdate hopen
  have htarget {u : Instant} (hu : start ≤ u) :=
    targetAt?_copy h hdates ht hlaid hopen hfloor hu
  have hopens : OpensOnce (moved.start.floorMillis)
      (t.shown (moved.toSubscriptionRecord.filed 1)) :=
    hlaid.opensOnce (Store.shown_ids ht _) (Store.shown_orderings ht _) (transferred?_starts h)
      (List.pairwise_of_forall_mem_list fun a ha _ _ htype =>
        (transferred?_type h a ha htype).elim)
  have hstart : (t.visible (moved.toSubscriptionRecord.filed 1)).start = start := by
    obtain ⟨start', target', hopen', rfl⟩ := transferred?_eq_some h
    obtain ⟨rfl, rfl⟩ := Prod.mk.inj (Option.some.inj (hopen.symm.trans hopen'))
    exact hfloor
  constructor
  · intro hcarried
    refine ⟨hstart.symm.trans hcarried.start, ?_⟩
    have hself := hcarried.target start (hstart ▸ Int.le_refl _)
    have hnone : (sub.ahead start).filter (·.effective ≤ start) = [] := by
      refine List.filter_eq_nil_iff.2 fun e he => ?_
      have hlater := (List.mem_filter.1 he).2
      simp only [Bool.and_eq_true, decide_eq_true_eq] at hlater
      rw [decide_eq_true_eq]
      exact Int.not_le.2 hlater.1
    rw [htarget (Int.le_refl _), hnone, targetAt?_uncancelled hids] at hself
    exact hself.symm
  · rintro ⟨hlater, hcourse⟩
    have hbehind : ∀ d ∈ starts sub.events, d ≤ start := by
      intro d hd
      rw [hstarts d hd, hlater]
      exact (Instant.later_le_iff.1 (Int.le_refl _)).2
    refine ⟨?_, ?_, hstart.trans hlater, fun d => ?_, fun u hu => ?_⟩
    · obtain ⟨_, _, -, rfl⟩ := transferred?_eq_some h
      rfl
    · obtain ⟨_, _, -, rfl⟩ := transferred?_eq_some h
      exact halign
    · obtain ⟨st, hst, hbegun, -⟩ := hopens.standingAt moved.category d
      have hread : (t.visible (moved.toSubscriptionRecord.filed 1)).standingAt d = some st :=
        (Store.standingAt_visible ht _ _).trans hst
      rw [hread, Option.map_some, hbegun]
      rfl
    · rw [hstart] at hu
      rw [htarget hu, targetAt?_uncancelled hids, courseAt_ahead hids hbehind hu, hcourse]

end Copies

/-! ## Openings -/

section Openings

variable {st : Standing}

theorem opening?_of_started (hids : (sub.events.map (·.id)).Nodup)
    (hst : sub.standingAt date = some st) (hstart : st.start ≤ date)
    (hlive : st.isCancelled = false) :
    ∃ target, sub.opening? date = some (date, target) ∧
      courseAt sub.events date = some target := by
  obtain ⟨-, hcancelled, htarget⟩ := standingAt_spec hst hstart
  rw [hcancelled] at hlive
  have hcourse := (htarget hlive).trans (target_reached hids hlive)
  obtain ⟨target, hsome⟩ := Option.isSome_iff_exists.1
    (courseAt_isSome hids (start_mem_starts hids hst) hstart)
  refine ⟨target, ?_, hsome⟩
  rw [opening?, heldAt?, hst, Option.filter_some, if_pos (by simp [hstart, hcancelled, hlive]),
    Option.bind_some, hcourse, hsome]

theorem opening?_of_not_started (hst : sub.standingAt date = some st) (hstart : date < st.start) :
    sub.opening? date = (sub.effectiveEvents.find? (date < ·.effective)).bind fun first =>
      first.payload.target?.map fun target => (first.effective, target) := by
  have hnot : ¬ st.start ≤ date := Int.not_le.2 hstart
  rw [opening?, heldAt?, hst, Option.filter_some, if_neg (by simp [hnot]), Option.bind_none]

/-- A copy opens at the right date and on the right position if its original has started, or else
if it starts next. -/
theorem opensRight_iff (hids : (sub.events.map (·.id)).Nodup)
    (hstarts : starts sub.events = [sub.start]) (hst : sub.standingAt date = some st)
    (hlive : st.isCancelled = false) :
    (∃ target, sub.opening? date = some (Instant.later date sub.start, target) ∧
        courseAt sub.events (Instant.later date sub.start) = some target) ↔
      sub.start ≤ date ∨ sub.StartsNext date := by
  have hself : st.start = sub.start := by
    simpa [hstarts] using start_mem_starts hids hst
  by_cases hstart : sub.start ≤ date
  · obtain ⟨target, hopen, hcourse⟩ := opening?_of_started hids hst (hself ▸ hstart) hlive
    rw [Instant.later_of_le hstart]
    exact ⟨fun _ => .inl hstart, fun _ => ⟨target, hopen, hcourse⟩⟩
  · have hahead : date < sub.start := Int.not_le.1 hstart
    obtain ⟨held, hheld⟩ := Option.isSome_iff_exists.1
      (courseAt_isSome hids (show sub.start ∈ starts sub.events by simp [hstarts])
        (Int.le_refl _))
    rw [Instant.later_of_lt hahead, opening?_of_not_started hst (hself ▸ hahead), StartsNext,
      targetAt?_uncancelled hids, hheld]
    constructor
    · rintro ⟨target, hopen, htarget⟩
      obtain ⟨first, hfirst, hopen⟩ := Option.bind_eq_some_iff.1 hopen
      obtain ⟨_, hpayload, hopen⟩ := Option.map_eq_some_iff.1 hopen
      obtain ⟨hdate, rfl⟩ := Prod.mk.inj hopen
      exact .inr ⟨first, hfirst, hdate, hpayload.trans htarget.symm⟩
    · rintro (hle | ⟨first, hfirst, hdate, hpayload⟩)
      · exact (hstart hle).elim
      · exact ⟨held, by rw [hfirst, Option.bind_some, hpayload, hdate, Option.map_some], rfl⟩

end Openings

end Subscription

/-! ## Transfers -/

/-- The copies that a transfer makes, each behind its original. -/
theorem transferAll_pairs (stamp : Stamp) (bundle : BundleId) (date : Instant) (supply : Supply)
    (subs : List Subscription) :
    ∃ pairs : List (Subscription × Subscription),
      pairs.map (·.1) = subs.filter (fun sub => (sub.opening? date).isSome) ∧
      pairs.map (·.2) = (transferAll stamp bundle date supply subs).1 ∧
      ∀ p ∈ pairs, ∃ supply, p.1.transferred? stamp bundle date supply = some p.2 := by
  induction subs generalizing supply with
  | nil => exact ⟨[], rfl, rfl, by simp⟩
  | cons sub subs ih =>
    cases hmoved : sub.transferred? stamp bundle date supply with
    | none =>
      obtain ⟨pairs, hfst, hsnd, hpairs⟩ := ih supply
      have hnone : ¬ (sub.opening? date).isSome = true := by
        simpa using Option.map_eq_none_iff.1 hmoved
      refine ⟨pairs, ?_, ?_, hpairs⟩
      · rw [List.filter_cons, if_neg hnone, hfst]
      · simp only [transferAll, hmoved, hsnd]
    | some moved =>
      obtain ⟨pairs, hfst, hsnd, hpairs⟩ := ih (supply.drop 0 1 moved.events.length)
      have hsome : (sub.opening? date).isSome = true := by
        obtain ⟨_, _, hopen, -⟩ := Subscription.transferred?_eq_some hmoved
        rw [hopen]
        rfl
      refine ⟨(sub, moved) :: pairs, ?_, ?_, fun p hp => ?_⟩
      · rw [List.filter_cons, if_pos hsome, List.map_cons, hfst]
      · simp only [transferAll, hmoved, List.map_cons, hsnd]
      · rcases List.mem_cons.1 hp with rfl | hp
        · exact ⟨supply, hmoved⟩
        · exact hpairs p hp

/-- The destination consists of the copies of what is carried and opens, laid down as they were
drawn up. -/
theorem Engine.transfer_copies {s t : Store} (hs : s.Sound) {e : Engine} {context : CallContext}
    {now : Instant} {request : TransferRequest} {moved : Bundle}
    (h : e.transfer context now request s = (.ok moved, t)) :
    ∃ source, s.bundleByKey? request.source request.key = some source ∧
      ∃ pairs : List (Subscription × Subscription), t.Tidy ∧
        pairs.map (·.1) = (request.carried (s.subscriptionsOf source.id)).filter
          (fun sub => (sub.opening? request.date).isSome) ∧
        (pairs.map fun p => t.visible (p.2.toSubscriptionRecord.filed 1)).Perm
          (t.subscriptionsOf moved.id) ∧
        ∀ p ∈ pairs,
          (∃ supply, p.1.transferred? (.ofContext context now) ((e.supply s).bundle 0) request.date
            supply = some p.2) ∧
          Laid s.events.length (t.shown (p.2.toSubscriptionRecord.filed 1))
            (p.2.events.map (·, 1)) := by
  obtain ⟨source, plan, hsource, hplanned, rfl, hrows⟩ := transfer_eq_ok hs.unlocked h
  obtain ⟨base, -, hsubs, -⟩ := planTransfer_eq_ok hplanned
  obtain ⟨pairs, hfst, hsnd, hpairs⟩ := transferAll_pairs (.ofContext context now)
    ((e.supply s).bundle 0) request.date (e.supply s)
    (request.carried (s.subscriptionsOf source.id))
  have hown : ∀ sub ∈ plan.image.subscriptions, ∀ f ∈ sub.events, f.subscription = sub.id :=
    hsubs ▸ transferAll_own
  rw [← hsnd] at hsubs
  have hbundle := bundle_of_planTransfer hplanned
  have hall : plan.image.subscriptions.filter (·.bundle == plan.image.bundle.id) =
      plan.image.subscriptions := by
    refine List.filter_eq_self.2 fun sub hsub => ?_
    rw [hsubs] at hsub
    obtain ⟨p, hp, rfl⟩ := List.mem_map.1 hsub
    obtain ⟨_, hmoved⟩ := hpairs p hp
    obtain ⟨_, _, -, hmoved⟩ := Subscription.transferred?_eq_some hmoved
    rw [hmoved, hbundle]
    exact beq_self_eq_true _
  have hperm := hrows.subscriptionsOf_scratch hs.tidy (b := plan.image.bundle.id)
    (hbundle ▸ fun c hc => (e.supply_fresh s).bundles.ne c hc 0)
  rw [hall, hsubs, List.map_map] at hperm
  exact ⟨source, hsource, pairs, hrows.tidy hs.tidy, hfst, hperm.symm, fun p hp => ⟨hpairs p hp,
    hrows.shown_scratch hs.tidy hown (Store.known_of_planTransfer hplanned)
      (hsubs ▸ List.mem_map_of_mem hp)⟩⟩

/-- **What a transfer keeps.** Every copy on the destination is that of one subscription of the
bundle. A subscription that can be replayed, is not cancelled by the date of the transfer, and is
base-like or covered by the request is carried over whole if it has started by then or if the event
that starts it is the next one and nothing moves it on at the same instant. Otherwise it is not. -/
theorem transfer_keeps_iff {s t : Store} (hs : s.Reachable) {e : Engine} {context : CallContext}
    {now : Instant} {request : TransferRequest} {moved : Bundle}
    (hdate : request.date.floorMillis = request.date)
    (h : e.transfer context now request s = (.ok moved, t)) :
    ∃ source, s.bundleByKey? request.source request.key = some source ∧
      ∃ copies : List (Subscription × Subscription),
        (copies.map (·.1)).Sublist (s.subscriptionsOf source.id) ∧
        (copies.map (·.2)).Perm (t.subscriptionsOf moved.id) ∧
        ∀ sub ∈ s.subscriptionsOf source.id, ∀ st, sub.standingAt request.date = some st →
          st.isCancelled = false → (sub.isBaseLike || request.addOns) = true →
            ((∃ copy, (sub, copy) ∈ copies ∧ sub.CarriedTo request.date copy) ↔
              sub.start ≤ request.date ∨ sub.StartsNext request.date) := by
  have hsound := hs.sound
  obtain ⟨source, hsource, pairs, ht, hfst, hperm, hpairs⟩ := Engine.transfer_copies hsound h
  refine ⟨source, hsource,
    pairs.map fun p => (p.1, t.visible (p.2.toSubscriptionRecord.filed 1)), ?_, ?_, ?_⟩
  · rw [List.map_map]
    show (pairs.map (·.1)).Sublist _
    rw [hfst]
    exact List.filter_sublist.trans List.filter_sublist
  · rw [List.map_map]
    exact hperm
  · intro sub hsub st hst hlive hcovered
    have hcarried : sub ∈ request.carried (s.subscriptionsOf source.id) :=
      List.mem_filter.2 ⟨hsub, by simp [hst, hlive, hcovered]⟩
    obtain ⟨r, hr, -, rfl⟩ := Store.mem_subscriptionsOf.1 hsub
    have hids := Store.visible_ids hsound.tidy r
    have hdates := Store.visible_dates hsound.tidy r
    have hstarts : starts (s.visible r).events = [(s.visible r).start] :=
      (Store.isRooted_of_standing hsound.tidy (hs.rooted r hr) hst).starts_visible
    have hiff : ∀ p ∈ pairs, p.1 = s.visible r → ∀ start target,
        (s.visible r).opening? request.date = some (start, target) →
          ((s.visible r).CarriedTo request.date
              (t.visible (p.2.toSubscriptionRecord.filed 1)) ↔
            start = Instant.later request.date (s.visible r).start ∧
              courseAt (s.visible r).events start = some target) := by
      intro p hp hself start target hopen
      obtain ⟨⟨_, hmoved⟩, hlaid⟩ := hpairs p hp
      rw [hself] at hmoved
      exact Subscription.carriedTo_iff hmoved hids hdates (by simp [hstarts])
        (hs.sound.tidy.recordDates r hr).alignStart ht hlaid hopen hdate
    rw [← Subscription.opensRight_iff hids hstarts hst hlive]
    constructor
    · rintro ⟨copy, hcopy, hkept⟩
      obtain ⟨p, hp, hpair⟩ := List.mem_map.1 hcopy
      obtain ⟨hself, rfl⟩ := Prod.mk.inj hpair
      have hopens : p.1 ∈ pairs.map (·.1) := List.mem_map_of_mem hp
      rw [hfst, hself, List.mem_filter] at hopens
      obtain ⟨⟨start, target⟩, hopen⟩ := Option.isSome_iff_exists.1 hopens.2
      obtain ⟨rfl, hcourse⟩ := (hiff p hp hself _ _ hopen).1 hkept
      exact ⟨target, hopen, hcourse⟩
    · rintro ⟨target, hopen, hcourse⟩
      have hopens : s.visible r ∈ pairs.map (·.1) := by
        rw [hfst]
        exact List.mem_filter.2 ⟨hcarried, by rw [hopen]; rfl⟩
      obtain ⟨p, hp, hself⟩ := List.mem_map.1 hopens
      exact ⟨_, List.mem_map.2 ⟨p, hp, by rw [hself]⟩, (hiff p hp hself _ _ hopen).2 ⟨rfl, hcourse⟩⟩

namespace Sample

/-- A base plan, and an add-on that begins on day 20. The end of the add-on is taken back for a day
on which it has not begun. -/
def withdrawn : Store := after
  [step 0 (.createBundle ⟨1⟩ "key"),
    step 0 (.createSubscription ⟨1⟩ ⟨"pistol", .monthly, "DEFAULT"⟩),
    ⟨engine, { caller with requested := some (day 20) }, day 0,
      .createSubscription ⟨1⟩ ⟨"telescopic-scope", .monthly, "DEFAULT"⟩⟩,
    ⟨engine, { caller with requested := some (day 25) }, day 1, .cancel ⟨2⟩⟩,
    ⟨engine, { caller with requested := some (day 15) }, day 2, .uncancel ⟨2⟩⟩]

/-- The bundle goes to another account on day 10, with its add-ons. -/
def handover : TransferRequest := ⟨⟨1⟩, ⟨2⟩, "key", day 10, true, true⟩

end Sample

theorem transfer_keeps_iff_sample :
    ∃ moved t, Sample.engine.transfer Sample.caller (Sample.day 10) Sample.handover
        Sample.withdrawn = (.ok moved, t) ∧
      ∃ copies : List (Subscription × Subscription),
        (copies.map (·.2)).Perm (t.subscriptionsOf moved.id) ∧
        ∀ sub ∈ Sample.withdrawn.subscriptionsOf ⟨1⟩,
          (∃ copy, (sub, copy) ∈ copies ∧ sub.CarriedTo (Sample.day 10) copy) ↔
            sub.category = .base := by
  have hread : (Sample.withdrawn.bundleByKey? ⟨1⟩ "key").map (·.id) = some ⟨1⟩ ∧
      ∀ sub ∈ Sample.withdrawn.subscriptionsOf ⟨1⟩,
        (sub.standingAt (Sample.day 10)).map (·.isCancelled) = some false ∧
        (sub.start ≤ Sample.day 10 ↔ sub.category = .base) ∧
        (sub.category = .addOn → sub.start = Sample.day 20 ∧ (sub.effectiveEvents.find?
          (Sample.day 10 < ·.effective)).map (·.effective) = some (Sample.day 15)) ∧
        (sub.category = .base ∨ sub.category = .addOn) := by
    decide +kernel
  obtain ⟨hkey, hsubs⟩ := hread
  have hdone : ((Sample.engine.transfer Sample.caller (Sample.day 10) Sample.handover
      Sample.withdrawn).1.toOption).isSome = true := by decide +kernel
  cases hres : Sample.engine.transfer Sample.caller (Sample.day 10) Sample.handover
      Sample.withdrawn with
  | mk res t =>
    rw [hres] at hdone
    cases res with
    | error err => cases hdone
    | ok moved =>
      obtain ⟨source, hsource, copies, -, hperm, hkeeps⟩ :=
        transfer_keeps_iff (Sample.reachable_after _) (by decide) hres
      have hsource : Sample.withdrawn.bundleByKey? ⟨1⟩ "key" = some source := hsource
      rw [hsource, Option.map_some, Option.some_inj] at hkey
      rw [hkey] at hkeeps
      refine ⟨moved, t, rfl, copies, hperm, fun sub hsub => ?_⟩
      obtain ⟨hlive, hstart, hahead, hcategory⟩ := hsubs sub hsub
      obtain ⟨st, hst, hlive⟩ := Option.map_eq_some_iff.1 hlive
      refine (hkeeps sub hsub st hst hlive (by simp [Sample.handover])).trans ?_
      rw [show Sample.handover.date = Sample.day 10 from rfl, hstart]
      refine or_iff_left_of_imp fun ⟨first, hfirst, hdate, _⟩ => ?_
      refine hcategory.resolve_right fun haddOn => ?_
      obtain ⟨hbegin, hnext⟩ := hahead haddOn
      rw [hfirst, Option.map_some, Option.some_inj, hdate, hbegin] at hnext
      exact absurd hnext (by decide)

end Tenure
