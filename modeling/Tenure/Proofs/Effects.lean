import Tenure.Proofs.Planning
import Tenure.Proofs.Scratch
import Tenure.Proofs.Writes

/-!
# What a step does

A step that fails leaves the store as it was, and so does a dry run. Any other step leaves what
its operation planned, and `Wrote` says for each operation which rows that is: the one place where
the operations are taken apart.

Between steps no lock is held, since every operation gives back the lock that it took. So a lock
is always to be had, and what is done under it is done to the store as it stands (`locked_eq`).
-/

namespace Tenure

/-! ## Reading -/

namespace Store

variable {s : Store}

/-- The visible events of a subscription, in the order of recording. -/
def shown (s : Store) (r : SubscriptionRecord) : List Event :=
  s.events.filter fun e => e.subscription == r.id && e.version == r.version

theorem mem_shown {r : SubscriptionRecord} {e : Event} :
    e ∈ s.shown r ↔ e ∈ s.events ∧ e.subscription = r.id ∧ e.version = r.version := by
  simp [shown]

theorem visible_perm (s : Store) (r : SubscriptionRecord) :
    (s.visible r).events.Perm (s.shown r) :=
  sortBy_perm _ _

theorem mem_visible {r : SubscriptionRecord} {e : Event} :
    e ∈ (s.visible r).events ↔ e ∈ s.shown r :=
  (s.visible_perm r).mem_iff

@[simp] theorem visible_id (r : SubscriptionRecord) : (s.visible r).id = r.id := rfl

theorem visible_congr {t : Store} {r : SubscriptionRecord} (h : t.shown r = s.shown r) :
    t.visible r = s.visible r := by
  have hevents : t.eventsAt r.id r.version = s.eventsAt r.id r.version :=
    congrArg (sortBy eventLe) h
  rw [visible, visible, hevents]

theorem mem_subscriptionsOf {b : BundleId} {sub : Subscription} :
    sub ∈ s.subscriptionsOf b ↔ ∃ r ∈ s.records, r.bundle = b ∧ s.visible r = sub := by
  simp [subscriptionsOf, and_assoc]

theorem subscription?_eq_some (hs : s.Tidy) {i : SubscriptionId} {sub : Subscription} :
    s.subscription? i = some sub ↔ ∃ r ∈ s.records, r.id = i ∧ s.visible r = sub := by
  rw [subscription?, Option.map_eq_some_iff]
  constructor
  · rintro ⟨r, hr, rfl⟩
    exact ⟨r, (mem_of_record? hr).1, (mem_of_record? hr).2, rfl⟩
  · rintro ⟨r, hr, rfl, rfl⟩
    exact ⟨r, hs.record?_eq hr, rfl⟩

theorem subscription?_of_mem (hs : s.Tidy) {r : SubscriptionRecord} (hr : r ∈ s.records) :
    s.subscription? r.id = some (s.visible r) :=
  (subscription?_eq_some hs).2 ⟨r, hr, rfl, rfl⟩

theorem shown_orderings (hs : s.Tidy) (r : SubscriptionRecord) :
    (s.shown r).Pairwise (fun a b => a.ordering < b.ordering) :=
  hs.pairwise_ordering.sublist List.filter_sublist

theorem visible_orderings (hs : s.Tidy) (r : SubscriptionRecord) :
    (s.visible r).events.Pairwise (fun a b => a.ordering ≠ b.ordering) :=
  ((shown_orderings hs r).imp Nat.ne_of_lt).perm (s.visible_perm r).symm fun h => h.symm

/-- What a subscription shows can be computed from its events in the order of recording. -/
theorem effectiveEvents_visible (hs : s.Tidy) (r : SubscriptionRecord) :
    effectiveEvents (s.visible r).events = effectiveEvents (s.shown r) :=
  effectiveEvents_perm (s.visible_perm r) (visible_orderings hs r)

theorem shown_ids (hs : s.Tidy) (r : SubscriptionRecord) : ((s.shown r).map (·.id)).Nodup := by
  have hmarks : ((s.shown r).map fun e => (e.id, e.version)).Nodup :=
    hs.marks.sublist (List.filter_sublist.map _)
  have hpairs : (s.shown r).map (fun e => (e.id, e.version)) =
      ((s.shown r).map (·.id)).map fun i => (i, r.version) := by
    rw [List.map_map]
    exact List.map_congr_left fun e he => by simp [(mem_shown.1 he).2.2]
  rw [hpairs] at hmarks
  exact hmarks.of_map _

theorem visible_ids (hs : s.Tidy) (r : SubscriptionRecord) :
    ((s.visible r).events.map (·.id)).Nodup :=
  ((s.visible_perm r).map _).nodup_iff.2 (shown_ids hs r)

theorem visible_dates (hs : s.Tidy) (r : SubscriptionRecord) :
    ∀ e ∈ (s.visible r).events, e.effective.floorMillis = e.effective :=
  fun e he => hs.eventDates e (mem_shown.1 (mem_visible.1 he)).1

theorem Tidy.nodup_subscriptionsOf (hs : s.Tidy) (b : BundleId) :
    ((s.subscriptionsOf b).map (·.id)).Nodup := by
  have hperm : ((s.subscriptionsOf b).map (·.id)).Perm
      ((s.records.filter (·.bundle == b)).map (·.id)) := by
    rw [subscriptionsOf, List.map_map]
    exact (sortBy_perm _ _).map _
  exact hperm.nodup_iff.2 (hs.recordIds.sublist (List.filter_sublist.map _))

theorem Tidy.bundle_ne (hs : s.Tidy) {r : SubscriptionRecord} (hr : r ∈ s.records)
    {b : BundleId} (hb : ∀ c ∈ s.bundles, c.id ≠ b) : r.bundle ≠ b := by
  rintro rfl
  obtain ⟨c, hc, hid⟩ := hs.recordBundle r hr
  exact hb c hc hid

end Store

/-- A subscription is read from the record that a write left of its own. -/
theorem Rows.subscription?_visible {s t : Store} {change : SubscriptionRecord → SubscriptionRecord}
    {fresh : List SubscriptionRecord} {written : List (Event × Nat)} {r : SubscriptionRecord}
    (h : Rows s t change fresh written) (ht : t.Tidy) (hr : r ∈ s.records) :
    t.subscription? r.id = some (t.visible (change r)) := by
  rw [← (h.keeps r).1]
  exact Store.subscription?_of_mem ht (h.mem_records hr)

/-! ## Sound stores -/

/-- What holds of every store that engines work on: no version runs ahead of its subscription, an
identifier of an event belongs to one subscription, and nobody holds a lock. -/
structure Store.Sound (s : Store) : Prop where
  tidy : s.Tidy
  versions : ∀ e ∈ s.events, ∀ r ∈ s.records, r.id = e.subscription → e.version ≤ r.version
  owner : ∀ e ∈ s.events, ∀ f ∈ s.events, e.id = f.id → e.subscription = f.subscription
  unlocked : s.locks = []

theorem Store.sound_empty : Store.Sound {} :=
  ⟨Store.tidy_empty, by simp, by simp, rfl⟩

/-- The subscriptions of a bundle come out of a sound store as repairs expect them. -/
theorem Store.Sound.loaded {s : Store} (hs : s.Sound) (b : BundleId) {next : Nat → EventId}
    (hnext : Unused next (·.id) s.events) : Loaded (s.subscriptionsOf b) next where
  ids := hs.tidy.nodup_subscriptionsOf b
  orderings := by
    intro sub hsub
    obtain ⟨r, -, -, rfl⟩ := Store.mem_subscriptionsOf.1 hsub
    exact Store.visible_orderings hs.tidy r
  own := by
    intro sub hsub e he
    obtain ⟨r, -, -, rfl⟩ := Store.mem_subscriptionsOf.1 hsub
    exact (Store.mem_shown.1 (Store.mem_visible.1 he)).2.1
  eventIds := by
    intro sub hsub
    obtain ⟨r, -, -, rfl⟩ := Store.mem_subscriptionsOf.1 hsub
    exact Store.visible_ids hs.tidy r
  owner := by
    intro sub hsub sub' hsub' e he e' he' hid
    obtain ⟨r, -, -, rfl⟩ := Store.mem_subscriptionsOf.1 hsub
    obtain ⟨r', -, -, rfl⟩ := Store.mem_subscriptionsOf.1 hsub'
    obtain ⟨he, howner, -⟩ := Store.mem_shown.1 (Store.mem_visible.1 he)
    obtain ⟨he', howner', -⟩ := Store.mem_shown.1 (Store.mem_visible.1 he')
    exact howner.symm.trans ((hs.owner e he e' he' hid).trans howner')
  injective := hnext.injective
  unused := by
    intro sub hsub e he
    obtain ⟨r, -, -, rfl⟩ := Store.mem_subscriptionsOf.1 hsub
    exact hnext.ne e (Store.mem_shown.1 (Store.mem_visible.1 he)).1

/-! ## Locks -/

/-- The store while an engine holds a bundle. -/
def Store.held (s : Store) (l : Lock) : Store := { s with locks := [l] }

theorem Store.Tidy.withLocks {s : Store} (hs : s.Tidy) (ls : List Lock) :
    Store.Tidy { s with locks := ls } :=
  { hs with }

/-- Rows written under a lock are those written without it. -/
theorem Rows.released {s t : Store} {l : Lock}
    {change : SubscriptionRecord → SubscriptionRecord} {fresh : List SubscriptionRecord}
    {written : List (Event × Nat)} (hlocks : s.locks = [])
    (h : Rows (s.held l) t change fresh written) :
    Rows s (t.unlock l.bundle l.owner) change fresh written where
  records := h.records
  events := h.events
  keeps := h.keeps
  bundles := h.bundles
  locks := by
    show t.locks.filter _ = s.locks
    rw [h.locks, hlocks]
    simp [Store.held]
  tidy := fun hs => (h.tidy (hs.withLocks _)).withLocks _

namespace Engine

variable {e : Engine} {bundle : BundleId} {s : Store}

/-- What an engine gives out is not in use. -/
theorem supply_fresh (e : Engine) (s : Store) : (e.supply s).Fresh s :=
  ⟨(e.ids.fresh _).bundles, (e.ids.fresh _).records, (e.ids.fresh _).events⟩

/-- The lock that an engine takes at one of its tries. -/
def lockOf (e : Engine) (bundle : BundleId) (k : Nat) : Lock :=
  ⟨bundle, e.owner, (e.tries k).millis⟩

/-- Where nobody holds a lock, the first try gets it. -/
theorem acquire_eq (hlocks : s.locks = []) (hattempts : e.settings.attempts ≠ 0) :
    e.acquire bundle s = (.ok (), s.held (e.lockOf bundle 0)) := by
  have hexpire (ttl : Int) : s.expire bundle (e.tries 0) ttl = s := by
    unfold Store.expire
    split
    · rfl
    · cases s
      simp_all
  obtain ⟨n, hn⟩ := Nat.exists_eq_succ_of_ne_zero hattempts
  simp [acquire, acquireFrom, hn, Store.tryLock, Store.takeLock, Store.insertLock, hexpire, hlocks,
    Store.held, lockOf]

theorem unlock_held (hlocks : s.locks = []) :
    (s.held (e.lockOf bundle 0)).unlock bundle e.owner = s := by
  cases s
  simp_all [Store.held, lockOf, Store.unlock]

theorem locked_eq {α : Type} {body : Store → Except Error (α × Store)} (hlocks : s.locks = [])
    (hattempts : e.settings.attempts ≠ 0) :
    e.locked bundle body s = match body (s.held (e.lockOf bundle 0)) with
      | .error err => (.error err, s)
      | .ok (a, t) => (.ok a, t.unlock bundle e.owner) := by
  rw [locked, acquire_eq hlocks hattempts]
  cases hbody : body (s.held (e.lockOf bundle 0)) with
  | error err => simp only [hbody, unlock_held hlocks]
  | ok r => simp only [hbody]

theorem locked_eq_of_no_attempts {α : Type} {body : Store → Except Error (α × Store)}
    (hattempts : e.settings.attempts = 0) :
    e.locked bundle body s = (.error (.lockTimeout bundle 0), s) := by
  simp [locked, acquire, acquireFrom, hattempts]

theorem locked_eq_ok {α : Type} {body : Store → Except Error (α × Store)} {a : α} {t : Store}
    (hlocks : s.locks = []) (h : e.locked bundle body s = (.ok a, t)) :
    e.settings.attempts ≠ 0 ∧ ∃ u, body (s.held (e.lockOf bundle 0)) = .ok (a, u) ∧
      t = u.unlock bundle e.owner := by
  by_cases hattempts : e.settings.attempts = 0
  · rw [locked_eq_of_no_attempts hattempts] at h
    cases h
  · rw [locked_eq hlocks hattempts] at h
    refine ⟨hattempts, ?_⟩
    split at h
    · cases h
    next b u hbody =>
      cases h
      exact ⟨u, hbody, rfl⟩

theorem locked_eq_error {α : Type} {body : Store → Except Error (α × Store)} {err : Error}
    {t : Store} (hlocks : s.locks = []) (h : e.locked bundle body s = (.error err, t)) :
    t = s := by
  by_cases hattempts : e.settings.attempts = 0
  · rw [locked_eq_of_no_attempts hattempts] at h
    cases h
    rfl
  · rw [locked_eq hlocks hattempts] at h
    split at h <;> cases h
    rfl

end Engine

/-! ## Plans of changes -/

namespace Engine

variable {e : Engine} {context : CallContext} {now : Instant} {i : SubscriptionId} {s : Store}

theorem subscription_eq_ok {sub : Subscription} :
    subscription s i = .ok sub ↔ s.subscription? i = some sub := by
  unfold subscription
  split <;> simp_all

theorem onSubscription_eq_ok {body : Store → Except Error Store}
    {sub : Subscription} {t : Store} (hlocks : s.locks = [])
    (h : e.onSubscription i body s = (.ok sub, t)) : t.subscription? i = some sub := by
  unfold onSubscription at h
  split at h
  · cases h
  · obtain ⟨-, u, hbody, rfl⟩ := locked_eq_ok hlocks h
    simp only [bind_eq_ok, pure_eq_ok, Prod.mk.injEq] at hbody
    obtain ⟨v, -, found, hfound, rfl, rfl⟩ := hbody
    exact subscription_eq_ok.1 hfound

theorem changeEvents_eq_ok {spec : PlanSpec} {events : List Event}
    (h : e.changeEvents context now i spec s = .ok events) :
    ∃ sub current plan, ∃ terms : ChangeTerms, ∃ schedule, s.subscription? i = some sub ∧
      liveTarget sub (context.requested.getD now) = .ok current ∧
      e.catalog.findPlan spec (context.requested.getD now) = .ok plan ∧
      (∃ source, e.catalog.position current (context.requested.getD now) = .ok source ∧
        e.catalog.planChange source spec (context.requested.getD now) = .ok terms) ∧
      e.catalog.alignOnChange ⟨sub.bundleStart, sub.alignStart⟩ current plan terms.newPriceList
        (context.requested.getD now)
        (policyDate terms.policy sub (context.requested.getD now)) = .ok schedule ∧
      events = (Stamp.ofContext context now).events (e.supply s).event
        (⟨i, policyDate terms.policy sub (context.requested.getD now),
            .change ⟨plan.name, schedule.current.phase.name, terms.newPriceList⟩⟩ ::
          phaseDrafts i schedule) := by
  simp only [changeEvents, bind_eq_ok, liftCatalog_eq_ok, guard_eq_ok, pure_eq_ok,
    subscription_eq_ok] at h
  obtain ⟨sub, hsub, current, hcurrent, source, hsource, plan, hplan, -, terms, hterms, schedule,
    hschedule, rfl⟩ := h
  exact ⟨sub, current, plan, terms, schedule, hsub, hcurrent, hplan, ⟨source, hsource, hterms⟩,
    hschedule, rfl⟩

theorem cancelEvents_eq_ok {bundle : BundleId} {events : List Event}
    (h : e.cancelEvents context now i s = .ok (bundle, events)) :
    ∃ sub current policy, s.subscription? i = some sub ∧ bundle = sub.bundle ∧
      liveTarget sub (context.requested.getD now) = .ok current ∧
      (∃ source, e.catalog.position current (context.requested.getD now) = .ok source ∧
        e.catalog.cancelPolicy source (context.requested.getD now) = .ok policy) ∧
      events = (Stamp.ofContext context now).events (e.supply s).event
        (⟨i, policyDate policy sub (context.requested.getD now), .cancel⟩ ::
          if sub.category == .base then
            cascade (s.subscriptionsOf sub.bundle)
              (policyDate policy sub (context.requested.getD now))
          else []) := by
  simp only [cancelEvents, cancelDate, bind_eq_ok, liftCatalog_eq_ok, pure_eq_ok,
    subscription_eq_ok, Prod.mk.injEq] at h
  obtain ⟨_, ⟨sub, hsub, current, hcurrent, source, hsource, policy, hpolicy, rfl⟩, rfl, rfl⟩ := h
  exact ⟨sub, current, policy, hsub, rfl, hcurrent, ⟨source, hsource, hpolicy⟩, rfl⟩

theorem uncancelEvents_eq_ok {bundle : BundleId} {events : List Event}
    (h : e.uncancelEvents context now i s = .ok (bundle, events)) :
    ∃ sub st, s.subscription? i = some sub ∧ bundle = sub.bundle ∧
      (sub.standingAt (context.requested.getD now)).filter (·.isFutureCancelled) = some st ∧
      events = (Stamp.ofContext context now).events (e.supply s).event
        ((i :: (if sub.category == .base then
            endingWith (s.subscriptionsOf sub.bundle) (context.requested.getD now) st.finish
          else []).map (·.id)).map fun i => ⟨i, context.requested.getD now, .uncancel⟩) := by
  simp only [uncancelEvents, pendingCancel, bind_eq_ok, subscription_eq_ok, pure_eq_ok,
    Prod.mk.injEq] at h
  obtain ⟨_, ⟨sub, hsub, hpending⟩, rfl, rfl⟩ := h
  split at hpending
  · simp [throw_ne_ok] at hpending
  next st hst =>
    rw [pure_eq_ok] at hpending
    cases hpending
    exact ⟨sub, st, hsub, rfl, hst, rfl⟩

theorem changeEvents_own {spec : PlanSpec} {events : List Event}
    (h : e.changeEvents context now i spec s = .ok events) : ∀ f ∈ events, f.subscription = i := by
  obtain ⟨_, _, _, _, _, -, -, -, -, -, rfl⟩ := changeEvents_eq_ok h
  intro f hf
  obtain ⟨d, hd, k, -, rfl⟩ := Stamp.mem_events hf
  rcases List.mem_cons.1 hd with rfl | hd
  · rfl
  · obtain ⟨p, -, rfl⟩ := List.mem_map.1 hd
    rfl

theorem changeEvents_type {spec : PlanSpec} {events : List Event}
    (h : e.changeEvents context now i spec s = .ok events) :
    ∀ f ∈ events, f.type = .change ∨ f.type = .phase := by
  obtain ⟨_, _, _, _, _, -, -, -, -, -, rfl⟩ := changeEvents_eq_ok h
  intro f hf
  obtain ⟨d, hd, k, -, rfl⟩ := Stamp.mem_events hf
  rcases List.mem_cons.1 hd with rfl | hd
  · exact .inl rfl
  · exact .inr (phaseDrafts_type hd)

theorem cancelEvents_type {bundle : BundleId} {events : List Event}
    (h : e.cancelEvents context now i s = .ok (bundle, events)) :
    ∀ f ∈ events, f.type = .cancel := by
  obtain ⟨_, _, _, -, -, -, -, rfl⟩ := cancelEvents_eq_ok h
  intro f hf
  obtain ⟨d, hd, k, -, rfl⟩ := Stamp.mem_events hf
  rcases List.mem_cons.1 hd with rfl | hd
  · rfl
  · split at hd
    · obtain ⟨a, -, hd⟩ := List.mem_filterMap.1 hd
      split at hd
      · obtain ⟨_, -, rfl⟩ := Option.map_eq_some_iff.1 hd
        rfl
      · cases hd
    · cases hd

theorem uncancelEvents_type {bundle : BundleId} {events : List Event}
    (h : e.uncancelEvents context now i s = .ok (bundle, events)) :
    ∀ f ∈ events, f.type = .uncancel := by
  obtain ⟨_, _, -, -, -, rfl⟩ := uncancelEvents_eq_ok h
  intro f hf
  obtain ⟨d, hd, k, -, rfl⟩ := Stamp.mem_events hf
  obtain ⟨_, -, rfl⟩ := List.mem_map.1 hd
  rfl

end Engine

theorem Store.known_of_planTransfer {s : Store} {source : Bundle} {b : BundleId}
    {request : TransferRequest} {context : CallContext} {now : Instant} {supply : Supply}
    {plan : TransferPlan}
    (h : planTransfer source (s.subscriptionsOf b) request context now supply = .ok plan) :
    ∀ e ∈ plan.cancels, ∃ r ∈ s.records, r.id = e.subscription := by
  intro e he
  obtain ⟨-, sub, hsub, hid⟩ := cancels_of_planTransfer h he
  obtain ⟨r, hr, -, rfl⟩ := mem_subscriptionsOf.1 hsub
  exact ⟨r, hr, hid⟩

/-! ## What operations write -/

/-- What a step leaves that is carried out and is no dry run. -/
inductive Wrote (s t : Store) : Step → Prop
  | createBundle {e : Engine} {context : CallContext} {now : Instant} {account : AccountId}
      {key : String} (rows : Rows s t id [] []) :
      Wrote s t ⟨e, context, now, .createBundle account key⟩
  | createSubscription {e : Engine} {context : CallContext} {now : Instant} {bundle : BundleId}
      {spec : PlanSpec} {sub : Subscription}
      (planned : e.newSubscription context now bundle spec s = .ok sub)
      (rows : Rows s t id (Store.scratchRecords [sub]) (Store.scratchEvents [sub])) :
      Wrote s t ⟨e, context, now, .createSubscription bundle spec⟩
  | changePlan {e : Engine} {context : CallContext} {now : Instant} {i : SubscriptionId}
      {spec : PlanSpec} {events : List Event}
      (planned : e.changeEvents context now i spec s = .ok events)
      (rows : Rows s t id [] (s.atVersions events)) :
      Wrote s t ⟨e, context, now, .changePlan i spec⟩
  | cancel {e : Engine} {context : CallContext} {now : Instant} {i : SubscriptionId}
      {bundle : BundleId} {events : List Event}
      (planned : e.cancelEvents context now i s = .ok (bundle, events))
      (rows : Rows s t id [] (s.atVersions events)) :
      Wrote s t ⟨e, context, now, .cancel i⟩
  | uncancel {e : Engine} {context : CallContext} {now : Instant} {i : SubscriptionId}
      {bundle : BundleId} {events : List Event}
      (planned : e.uncancelEvents context now i s = .ok (bundle, events))
      (rows : Rows s t id [] (s.atVersions events)) :
      Wrote s t ⟨e, context, now, .uncancel i⟩
  | setChargedThrough {e : Engine} {context : CallContext} {now : Instant} {i : SubscriptionId}
      {date : Option Instant} {change : SubscriptionRecord → SubscriptionRecord}
      (rows : Rows s t change [] [])
      (paid : ∀ r, ∃ paid, change r = { r with chargedThrough := paid }) :
      Wrote s t ⟨e, context, now, .setChargedThrough i date⟩
  | repair {e : Engine} {context : CallContext} {now : Instant} {bundle : BundleId}
      {repair : Repair} {plan : RepairPlan}
      (planned : e.planStored context now bundle repair s = .ok plan)
      (rows : Rows s t (Store.reviseAll plan.commit.subscriptions) []
        (s.revised plan.commit.subscriptions))
      (done : Step.Succeeds ⟨e, context, now, .repair bundle repair false⟩ s) :
      Wrote s t ⟨e, context, now, .repair bundle repair false⟩
  | migrate {e : Engine} {context : CallContext} {now : Instant} {migration : AccountMigration}
      {images : List BundleImage}
      (planned : planMigration e.catalog migration (s.bundlesOf migration.account) context now
        (e.supply s) = .ok images)
      (rows : Rows s t id (Store.scratchRecords (images.flatMap (·.subscriptions)))
        (Store.scratchEvents (images.flatMap (·.subscriptions)))) :
      Wrote s t ⟨e, context, now, .migrate migration⟩
  | transfer {e : Engine} {context : CallContext} {now : Instant} {request : TransferRequest}
      {source : Bundle} {plan : TransferPlan}
      (found : s.bundleByKey? request.source request.key = some source)
      (planned : planTransfer source (s.subscriptionsOf source.id) request context now
        (e.supply s) = .ok plan)
      (rows : Rows s t id (Store.scratchRecords plan.image.subscriptions)
        (Store.scratchEvents plan.image.subscriptions ++ s.atVersions plan.cancels)) :
      Wrote s t ⟨e, context, now, .transfer request⟩

/-! ## Plans of repairs -/

theorem Engine.planStored_eq_ok {e : Engine} {context : CallContext} {now : Instant}
    {bundle : BundleId} {repair : Repair} {plan : RepairPlan} {s : Store}
    (h : e.planStored context now bundle repair s = .ok plan) :
    ∃ b benched works, s.bundle? bundle = some b ∧
      Planned ⟨b, s.subscriptionsOf bundle, benched⟩
        (Workbench.replayContext ⟨b, s.subscriptionsOf bundle, benched⟩ e.catalog context now
          (e.supply s).event) repair (b.viewId (s.subscriptionsOf bundle)) works plan := by
  unfold planStored at h
  split at h
  · cases h
  next b hb =>
    obtain ⟨benched, works, hplanned⟩ := planRepair_eq_ok h
    exact ⟨b, benched, works, hb, hplanned⟩

theorem Planned.commit_ids {b : Workbench} {cx : ReplayContext} {repair : Repair} {view : String}
    {works : List Rework} {plan : RepairPlan} (h : Planned b cx repair view works plan)
    (hload : Loaded b.subscriptions cx.ids) :
    (plan.commit.subscriptions.map (·.id)).Nodup := by
  have hids : (works.map (·.id)).Nodup := by
    rw [Replay.map_ids_of_bare (Replay.run_bare h.ran)]
    exact hload.workIds h.benched
  rw [h.subscriptions, List.map_map]
  exact hids.sublist (List.filter_sublist.map _)

theorem Planned.exists_record {s : Store} {bundle : Bundle} {benched works : List Rework}
    {cx : ReplayContext} {repair : Repair} {view : String} {plan : RepairPlan} {b : BundleId}
    (h : Planned ⟨bundle, s.subscriptionsOf b, benched⟩ cx repair view works plan) {w : Rework}
    (hw : w ∈ works) : ∃ q ∈ s.records, q.bundle = b ∧ s.visible q = w.subscription :=
  Store.mem_subscriptionsOf.1 (h.work_mem hw)

theorem Planned.mem_shown_of_kept {s : Store} {bundle : Bundle} {benched works : List Rework}
    {cx : ReplayContext} {repair : Repair} {view : String} {plan : RepairPlan} {b : BundleId}
    (h : Planned ⟨bundle, s.subscriptionsOf b, benched⟩ cx repair view works plan) {w : Rework}
    (hw : w ∈ works) {e : Event} (he : e ∈ w.kept) :
    ∃ q ∈ s.records, q.id = w.id ∧ e ∈ s.shown q := by
  obtain ⟨q, hq, -, hvisible⟩ := h.exists_record hw
  have hmem := Loaded.mem_of_kept (h.work_prepared hw) he
  rw [← hvisible, Store.mem_visible] at hmem
  exact ⟨q, hq, congrArg (·.id) hvisible, hmem⟩

/-- What is written are the events of the touched subscriptions, under their next versions. -/
theorem Planned.mem_revised {s : Store} {b : Workbench} {cx : ReplayContext} {repair : Repair}
    {view : String} {works : List Rework} {plan : RepairPlan}
    (h : Planned b cx repair view works plan) {x : Event × Nat} :
    x ∈ s.revised plan.commit.subscriptions ↔
      ∃ w ∈ works, w.isTouched = true ∧ x.1 ∈ w.events ∧ x.2 = s.versionOf w.id + 1 := by
  simp only [Store.revised, List.mem_flatMap, List.mem_map, h.mem_commit]
  constructor
  · rintro ⟨_, ⟨w, hw, htouched, rfl⟩, e, he, rfl⟩
    exact ⟨w, hw, htouched, he, rfl⟩
  · rintro ⟨w, hw, htouched, he, hv⟩
    exact ⟨_, ⟨w, hw, htouched, rfl⟩, x.1, he, Prod.ext rfl hv.symm⟩

theorem Planned.touched_version {b : Workbench} {cx : ReplayContext} {repair : Repair}
    {view : String} {works : List Rework} {plan : RepairPlan}
    (h : Planned b cx repair view works plan) (hload : Loaded b.subscriptions cx.ids)
    {w : Rework} (hw : w ∈ works) (htouched : w.isTouched = true) {q : SubscriptionRecord}
    (hid : q.id = w.id) :
    (Store.reviseAll plan.commit.subscriptions q).version = q.version + 1 := by
  rw [Store.reviseAll_of_mem (h.commit_ids hload) (h.repaired_mem hw htouched) hid]
  simp [Store.revise, hid, Workbench.repaired]

/-- A repair that succeeds has a plan. A dry run shows it and leaves the store alone; otherwise
the rows of the plan are written and the timeline is read back. -/
theorem Engine.repair_eq_ok {e : Engine} {context : CallContext} {now : Instant}
    {bundle : BundleId} {repair : Repair} {dryRun : Bool} {s t : Store} {view : TimelineView}
    (hs : s.Sound) (h : e.repair context now bundle repair dryRun s = (.ok view, t)) :
    e.settings.attempts ≠ 0 ∧ ∃ plan, e.planStored context now bundle repair s = .ok plan ∧
      (dryRun = true → view = plan.view ∧ t = s) ∧
      (dryRun = false → Engine.timeline t bundle = .ok view ∧
        Rows s t (Store.reviseAll plan.commit.subscriptions) []
          (s.revised plan.commit.subscriptions)) := by
  obtain ⟨hattempts, u, hu, rfl⟩ := locked_eq_ok hs.unlocked h
  simp only [bind_eq_ok] at hu
  obtain ⟨plan, hplan, hu⟩ := hu
  refine ⟨hattempts, plan, hplan, fun hdry => ?_, fun hdry => ?_⟩
  · rw [if_pos hdry, pure_eq_ok] at hu
    cases hu
    exact ⟨rfl, unlock_held hs.unlocked⟩
  · simp only [hdry, Bool.false_eq_true, if_false, bind_eq_ok, mapError_eq_ok, pure_eq_ok,
      Prod.mk.injEq] at hu
    obtain ⟨⟨_, v⟩, hv, _, hview, rfl, rfl⟩ := hu
    obtain ⟨b, benched, works, -, hp⟩ := planStored_eq_ok hplan
    have hload := hs.loaded bundle (e.supply_fresh s).events
    have hrows := (Store.commitRepair_rows (hs.tidy.withLocks _) (hp.commit_ids hload) hv).1
    exact ⟨hview, hrows.released hs.unlocked⟩

/-- A repair that succeeds and is no dry run has been replayed, and its plan is written. -/
theorem Engine.repair_replayed {e : Engine} {context : CallContext} {now : Instant} {b : BundleId}
    {repair : Repair} {s t : Store} {view : TimelineView} (hs : s.Sound)
    (h : e.repair context now b repair false s = (.ok view, t)) :
    ∃ bundle benched plan r,
      Planned ⟨bundle, s.subscriptionsOf b, benched⟩
        (Workbench.replayContext ⟨bundle, s.subscriptionsOf b, benched⟩ e.catalog context now
          (e.supply s).event) repair (bundle.viewId (s.subscriptionsOf b)) r.works plan ∧
      Sweep (Workbench.replayContext ⟨bundle, s.subscriptionsOf b, benched⟩ e.catalog context now
        (e.supply s).event) r [] ∧
      Rows s t (Store.reviseAll plan.commit.subscriptions) []
        (s.revised plan.commit.subscriptions) := by
  obtain ⟨-, plan, hplan, -, hwritten⟩ := repair_eq_ok hs h
  obtain ⟨bundle, benched, works, -, hp⟩ := planStored_eq_ok hplan
  obtain ⟨r, rfl, hsweep⟩ := hp.sweep (hs.loaded b (e.supply_fresh s).events)
  exact ⟨bundle, benched, plan, r, hp, hsweep, (hwritten rfl).2⟩

theorem Engine.transfer_eq_ok {e : Engine} {context : CallContext} {now : Instant}
    {request : TransferRequest} {s t : Store} {moved : Bundle} (hlocks : s.locks = [])
    (h : e.transfer context now request s = (.ok moved, t)) :
    ∃ source plan, s.bundleByKey? request.source request.key = some source ∧
      planTransfer source (s.subscriptionsOf source.id) request context now (e.supply s) =
        .ok plan ∧
      moved = plan.image.bundle ∧
      Rows s t id (Store.scratchRecords plan.image.subscriptions)
        (Store.scratchEvents plan.image.subscriptions ++ s.atVersions plan.cancels) := by
  unfold transfer at h
  split at h
  · cases h
  next source hsource =>
    split at h
    · cases h
    · obtain ⟨-, u, hu, rfl⟩ := locked_eq_ok hlocks h
      simp only [bind_eq_ok, mapError_eq_ok, pure_eq_ok, Prod.mk.injEq] at hu
      obtain ⟨plan, hplanned, v, hv, rfl, rfl⟩ := hu
      have hrows := (Store.commitBundles_rows (s := s.held (e.lockOf source.id 0))
        (Store.known_of_planTransfer hplanned) hv).released hlocks
      have hheld : (s.held (e.lockOf source.id 0)).atVersions plan.cancels =
          s.atVersions plan.cancels := rfl
      rw [hheld, List.flatMap_singleton] at hrows
      exact ⟨source, plan, hsource, hplanned, rfl, hrows⟩

theorem Engine.transfer_eq_error {e : Engine} {context : CallContext} {now : Instant}
    {request : TransferRequest} {s t : Store} {err : Error} (hlocks : s.locks = [])
    (h : e.transfer context now request s = (.error err, t)) : t = s := by
  unfold transfer at h
  split at h
  · exact (congrArg Prod.snd h).symm
  · split at h
    · exact (congrArg Prod.snd h).symm
    · exact locked_eq_error hlocks h

theorem Engine.migrate_eq_ok {e : Engine} {context : CallContext} {now : Instant}
    {migration : AccountMigration} {s t : Store} {bundles : List Bundle}
    (h : e.migrate context now migration s = (.ok bundles, t)) :
    ∃ images, planMigration e.catalog migration (s.bundlesOf migration.account) context now
        (e.supply s) = .ok images ∧ bundles = images.map (·.bundle) ∧
      Rows s t id (Store.scratchRecords (images.flatMap (·.subscriptions)))
        (Store.scratchEvents (images.flatMap (·.subscriptions))) := by
  simp only [migrate, unlocked] at h
  split at h
  · cases h
  next images u hu =>
    cases h
    simp only [bind_eq_ok, mapError_eq_ok, pure_eq_ok, Prod.mk.injEq] at hu
    obtain ⟨images, hplanned, v, hv, rfl, rfl⟩ := hu
    have hrows := Store.commitBundles_rows (by simp) hv
    exact ⟨images, hplanned, rfl, by simpa [Store.atVersions] using hrows⟩

namespace Step

variable {s : Store} {st : Step}

/-- The step changes nothing: it fails, or it is a dry run. -/
structure Idle (st : Step) (s : Store) : Prop where
  after : st.after s = s
  dryRun : st.Succeeds s → ∃ bundle repair, st.call = .repair bundle repair true

theorem idle_of_error {α : Type} {err : Error}
    (hrun : st.run s = outcome (α := α) (.error err, s)) : st.Idle s where
  after := congrArg Prod.snd hrun
  dryRun := by
    intro hdone
    rw [Succeeds, hrun] at hdone
    cases hdone

/-- The step is carried out and writes what its operation planned. -/
structure Writes (st : Step) (s : Store) : Prop where
  done : st.Succeeds s
  wrote : Wrote s (st.after s) st

theorem writes_of_ok {α : Type} {a : α} {t : Store} (hrun : st.run s = outcome (.ok a, t))
    (hwrote : Wrote s t st) : st.Writes s where
  done := congrArg Prod.fst hrun
  wrote := by
    rw [show st.after s = t from congrArg Prod.snd hrun]
    exact hwrote

theorem wrote_locked {α : Type} {e : Engine} {bundle : BundleId}
    {body : Store → Except Error (α × Store)} (hlocks : s.locks = []) (st : Step)
    (hst : st.run s = outcome (e.locked bundle body s))
    (hbody : ∀ l a u, body (s.held l) = .ok (a, u) → Wrote s (u.unlock l.bundle l.owner) st) :
    st.Idle s ∨ st.Writes s := by
  cases hres : e.locked bundle body s with
  | mk res t =>
    rw [hres] at hst
    cases res with
    | error err =>
      rw [Engine.locked_eq_error hlocks hres] at hst
      exact .inl (idle_of_error hst)
    | ok a =>
      obtain ⟨-, u, hu, ht⟩ := Engine.locked_eq_ok hlocks hres
      exact .inr (writes_of_ok hst (ht ▸ hbody _ a u hu))

/-- What is done to a subscription under the lock of its bundle. -/
theorem wrote_onSubscription {e : Engine} {i : SubscriptionId}
    {body : Store → Except Error Store} (hlocks : s.locks = []) (st : Step)
    (hst : st.run s = outcome (e.onSubscription i body s))
    (hbody : ∀ l u, body (s.held l) = .ok u → Wrote s (u.unlock l.bundle l.owner) st) :
    st.Idle s ∨ st.Writes s := by
  unfold Engine.onSubscription at hst
  split at hst
  · exact .inl (idle_of_error hst)
  · apply wrote_locked hlocks st hst
    intro l a u hu
    simp only [bind_eq_ok, pure_eq_ok, Prod.mk.injEq] at hu
    obtain ⟨v, hv, _, -, -, rfl⟩ := hu
    exact hbody l v hv

theorem wrote_repair {e : Engine} {context : CallContext} {now : Instant} {bundle : BundleId}
    {repair : Repair} {dryRun : Bool} (hs : s.Sound) :
    Step.Idle ⟨e, context, now, .repair bundle repair dryRun⟩ s ∨
      Step.Writes ⟨e, context, now, .repair bundle repair dryRun⟩ s := by
  have hst : Step.run ⟨e, context, now, .repair bundle repair dryRun⟩ s =
      outcome (e.repair context now bundle repair dryRun s) := rfl
  cases hres : e.repair context now bundle repair dryRun s with
  | mk res t =>
    rw [hres] at hst
    cases res with
    | error err =>
      rw [Engine.locked_eq_error hs.unlocked hres] at hst
      exact .inl (idle_of_error hst)
    | ok view =>
      obtain ⟨-, plan, hplan, hdry, hcommit⟩ := Engine.repair_eq_ok hs hres
      cases dryRun with
      | true =>
        exact .inl ⟨(congrArg Prod.snd hst).trans (hdry rfl).2, fun _ => ⟨bundle, repair, rfl⟩⟩
      | false =>
        exact .inr (writes_of_ok hst (.repair hplan (hcommit rfl).2 (congrArg Prod.fst hst)))

theorem wrote_transfer {e : Engine} {context : CallContext} {now : Instant}
    {request : TransferRequest} (hlocks : s.locks = []) :
    Step.Idle ⟨e, context, now, .transfer request⟩ s ∨
      Step.Writes ⟨e, context, now, .transfer request⟩ s := by
  have hst : Step.run ⟨e, context, now, .transfer request⟩ s =
      outcome (e.transfer context now request s) := rfl
  cases hres : e.transfer context now request s with
  | mk res t =>
    rw [hres] at hst
    cases res with
    | error err =>
      rw [Engine.transfer_eq_error hlocks hres] at hst
      exact .inl (idle_of_error hst)
    | ok moved =>
      obtain ⟨source, plan, hsource, hplanned, -, hrows⟩ := Engine.transfer_eq_ok hlocks hres
      exact .inr (writes_of_ok hst (.transfer hsource hplanned hrows))

theorem idle_or_writes (hs : s.Sound) (st : Step) : st.Idle s ∨ st.Writes s := by
  have hlocks := hs.unlocked
  obtain ⟨e, context, now, call⟩ := st
  cases call with
  | createBundle account key =>
    have hst : Step.run ⟨e, context, now, .createBundle account key⟩ s =
        outcome (e.createBundle context now account key s) := rfl
    simp only [Engine.createBundle, Engine.unlocked] at hst
    split at hst
    · exact .inl (idle_of_error hst)
    next b t ht =>
      refine .inr (writes_of_ok hst ?_)
      split at ht
      · cases ht
      · split at ht <;> cases ht
        next hcreated => exact .createBundle (Store.insertBundle_rows hcreated)
  | createSubscription bundle spec =>
    have hst : Step.run ⟨e, context, now, .createSubscription bundle spec⟩ s =
        outcome (e.createSubscription context now bundle spec s) := rfl
    rw [Engine.createSubscription] at hst
    apply wrote_locked hlocks _ hst
    intro l sub u hu
    simp only [bind_eq_ok] at hu
    obtain ⟨planned, hplanned, hu⟩ := hu
    have hrows := (Store.createSubscription_rows (liftStore_eq_ok.1 hu)).released hlocks
    exact .createSubscription hplanned
      (by simpa [Store.scratchRecords, Store.scratchEvents] using hrows)
  | changePlan i spec =>
    apply wrote_onSubscription hlocks _ rfl
    intro l u hu
    simp only [bind_eq_ok, liftStore_eq_ok, pure_eq_ok] at hu
    obtain ⟨events, hplanned, ⟨_, v⟩, hv, rfl⟩ := hu
    exact .changePlan hplanned ((Store.append_rows hv).1.released hlocks)
  | cancel i =>
    apply wrote_onSubscription hlocks _ rfl
    intro l u hu
    simp only [bind_eq_ok, liftStore_eq_ok, pure_eq_ok] at hu
    obtain ⟨⟨bundle, events⟩, hplanned, ⟨_, v⟩, hv, rfl⟩ := hu
    exact .cancel hplanned ((Store.appendToBundle_rows hv).1.released hlocks)
  | uncancel i =>
    apply wrote_onSubscription hlocks _ rfl
    intro l u hu
    simp only [bind_eq_ok, liftStore_eq_ok, pure_eq_ok] at hu
    obtain ⟨⟨bundle, events⟩, hplanned, ⟨_, v⟩, hv, rfl⟩ := hu
    exact .uncancel hplanned ((Store.appendToBundle_rows hv).1.released hlocks)
  | setChargedThrough i date =>
    have hst : Step.run ⟨e, context, now, .setChargedThrough i date⟩ s =
        outcome (e.setChargedThrough i date s) := rfl
    unfold Engine.setChargedThrough at hst
    split at hst
    · exact .inl (idle_of_error hst)
    · apply wrote_locked hlocks _ hst
      intro l _ u hu
      simp only [bind_eq_ok, liftStore_eq_ok, pure_eq_ok, Prod.mk.injEq] at hu
      obtain ⟨v, hv, -, rfl⟩ := hu
      obtain ⟨change, hrows, hpaid⟩ := Store.setChargedThrough_rows hv
      exact .setChargedThrough (hrows.released hlocks) hpaid
  | repair bundle repair dryRun => exact wrote_repair hs
  | migrate migration =>
    have hst : Step.run ⟨e, context, now, .migrate migration⟩ s =
        outcome (e.migrate context now migration s) := rfl
    cases hres : e.migrate context now migration s with
    | mk res t =>
      rw [hres] at hst
      cases res with
      | error err =>
        have hsame : t = s := by
          simp only [Engine.migrate, Engine.unlocked] at hres
          split at hres
          · exact (congrArg Prod.snd hres).symm
          · cases hres
        rw [hsame] at hst
        exact .inl (idle_of_error hst)
      | ok bundles =>
        obtain ⟨images, hplanned, -, hrows⟩ := Engine.migrate_eq_ok hres
        exact .inr (writes_of_ok hst (.migrate hplanned hrows))
  | transfer request => exact wrote_transfer hlocks

/-- A step leaves the store as it was or what its operation planned. -/
theorem wrote (hs : s.Sound) (st : Step) : st.after s = s ∨ Wrote s (st.after s) st :=
  (idle_or_writes hs st).imp Idle.after Writes.wrote

theorem after_of_fails (hs : s.Sound) (h : ¬ st.Succeeds s) : st.after s = s :=
  (idle_or_writes hs st).elim Idle.after fun hwrites => (h hwrites.done).elim

/-- A call that gives a result, and is no dry run, leaves what its operation planned. -/
theorem wrote_of_ok {α : Type} {a : α} {t : Store} (hs : s.Sound)
    (hrun : st.run s = outcome (.ok a, t))
    (hcall : ∀ bundle repair, st.call ≠ .repair bundle repair true) :
    t = st.after s ∧ Wrote s t st := by
  have ht : t = st.after s := (congrArg Prod.snd hrun).symm
  rcases idle_or_writes hs st with hidle | hwrites
  · obtain ⟨bundle, repair, hdry⟩ := hidle.dryRun (congrArg Prod.fst hrun)
    exact absurd hdry (hcall bundle repair)
  · exact ⟨ht, ht ▸ hwrites.wrote⟩

end Step

end Tenure
