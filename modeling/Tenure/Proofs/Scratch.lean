import Tenure.Engine.Lifecycle
import Tenure.Engine.Planned
import Tenure.Proofs.Filing

/-!
# Subscriptions written from scratch

A new subscription, an imported one and the copy that a transfer makes are written with events of
their own, under identifiers from the supply. Each planning function is taken apart once here, into
what it asked of the catalog and what it made of the answers.
-/

namespace Tenure

/-! ## New events -/

theorem Stamp.mem_events {stamp : Stamp} {ids : Nat → EventId} {ds : List Draft} {e : Event}
    (h : e ∈ stamp.events ids ds) : ∃ d ∈ ds, ∃ n < ds.length, e = stamp.event (ids n) d := by
  induction ds generalizing ids with
  | nil => cases h
  | cons d ds ih =>
    rcases List.mem_cons.1 h with rfl | h
    · exact ⟨d, by simp, 0, by simp, rfl⟩
    · obtain ⟨d', hd', n, hn, rfl⟩ := ih h
      exact ⟨d', by simp [hd'], n + 1, by simpa using hn, rfl⟩

theorem Stamp.exists_event (stamp : Stamp) (ids : Nat → EventId) {ds : List Draft} {d : Draft}
    (h : d ∈ ds) : ∃ id, stamp.event id d ∈ stamp.events ids ds := by
  induction ds generalizing ids with
  | nil => cases h
  | cons d' ds ih =>
    rcases List.mem_cons.1 h with rfl | h
    · exact ⟨ids 0, List.mem_cons_self⟩
    · obtain ⟨id, hid⟩ := ih _ h
      exact ⟨id, List.mem_cons_of_mem _ hid⟩

@[simp] theorem Stamp.map_payload_events (stamp : Stamp) (ids : Nat → EventId) (ds : List Draft) :
    (stamp.events ids ds).map (·.payload) = ds.map (·.payload) := by
  induction ds generalizing ids with
  | nil => rfl
  | cons d ds ih => exact congrArg (d.payload :: ·) (ih _)

@[simp] theorem Stamp.map_effective_events (stamp : Stamp) (ids : Nat → EventId)
    (ds : List Draft) : (stamp.events ids ds).map (·.effective) = ds.map (·.effective) := by
  induction ds generalizing ids with
  | nil => rfl
  | cons d ds ih => exact congrArg (d.effective :: ·) (ih _)

theorem Stamp.map_draft_events (stamp : Stamp) (ids : Nat → EventId) (ds : List Draft) :
    (stamp.events ids ds).map (fun e => (e.effective, e.payload)) =
      ds.map fun d => (d.effective, d.payload) := by
  induction ds generalizing ids with
  | nil => rfl
  | cons d ds ih => exact congrArg ((d.effective, d.payload) :: ·) (ih _)

/-- Events picked by their dates come from the drafts of those dates. -/
theorem Stamp.map_payload_filter_events (stamp : Stamp) (ids : Nat → EventId) (p : Instant → Bool)
    (ds : List Draft) : ((stamp.events ids ds).filter fun e => p e.effective).map (·.payload) =
      (ds.filter fun d => p d.effective).map (·.payload) := by
  induction ds generalizing ids with
  | nil => rfl
  | cons d ds ih =>
    rw [Stamp.events, List.filter_cons, List.filter_cons,
      show (stamp.event (ids 0) d).effective = d.effective from rfl]
    split
    · rw [List.map_cons, List.map_cons, ih]
      rfl
    · exact ih _

theorem Stamp.nodup_ids (stamp : Stamp) {ids : Nat → EventId} (hids : Function.Injective ids)
    (ds : List Draft) : ((stamp.events ids ds).map (·.id)).Nodup := by
  induction ds generalizing ids with
  | nil => exact .nil
  | cons d ds ih =>
    refine List.nodup_cons.2 ⟨fun hmem => ?_, ih fun m n h => Nat.succ.inj (hids h)⟩
    obtain ⟨e, he, hid⟩ := List.mem_map.1 hmem
    obtain ⟨d', -, n, -, rfl⟩ := mem_events he
    exact Nat.succ_ne_zero n (hids hid)

/-! ## Identifiers of events -/

/-- Subscriptions with new events of their own, under the first `n` of these identifiers. -/
structure Scratch (ids : Nat → EventId) (n : Nat) (subs : List Subscription) : Prop where
  own : ∀ sub ∈ subs, ∀ e ∈ sub.events, e.subscription = sub.id
  drawn : ∀ sub ∈ subs, ∀ e ∈ sub.events, ∃ k < n, e.id = ids k
  agree : ∀ sub ∈ subs, ∀ sub' ∈ subs, ∀ e ∈ sub.events, ∀ e' ∈ sub'.events, e.id = e'.id →
    sub.id = sub'.id

namespace Scratch

variable {ids : Nat → EventId} {m n : Nat} {xs ys : List Subscription}

theorem nil : Scratch ids 0 [] := ⟨by simp, by simp, by simp⟩

theorem append (hids : Function.Injective ids) (h : Scratch ids m xs)
    (h' : Scratch (fun k => ids (m + k)) n ys) : Scratch ids (m + n) (xs ++ ys) where
  own := by
    intro sub hsub
    rcases List.mem_append.1 hsub with hsub | hsub
    · exact h.own sub hsub
    · exact h'.own sub hsub
  drawn := by
    intro sub hsub e he
    rcases List.mem_append.1 hsub with hsub | hsub
    · obtain ⟨k, hk, hid⟩ := h.drawn sub hsub e he
      exact ⟨k, by omega, hid⟩
    · obtain ⟨k, hk, hid⟩ := h'.drawn sub hsub e he
      exact ⟨m + k, by omega, hid⟩
  agree := by
    have hapart : ∀ sub ∈ xs, ∀ sub' ∈ ys, ∀ e ∈ sub.events, ∀ e' ∈ sub'.events, e.id ≠ e'.id := by
      intro sub hsub sub' hsub' e he e' he' hid
      obtain ⟨k, hk, heq⟩ := h.drawn sub hsub e he
      obtain ⟨k', -, heq'⟩ := h'.drawn sub' hsub' e' he'
      have := hids (heq.symm.trans (hid.trans heq'))
      omega
    intro sub hsub sub' hsub' e he e' he' hid
    rcases List.mem_append.1 hsub with hsub | hsub <;>
      rcases List.mem_append.1 hsub' with hsub' | hsub'
    · exact h.agree sub hsub sub' hsub' e he e' he' hid
    · exact absurd hid (hapart sub hsub sub' hsub' e he e' he')
    · exact absurd hid.symm (hapart sub' hsub' sub hsub e' he' e he)
    · exact h'.agree sub hsub sub' hsub' e he e' he' hid

theorem singleton {sub : Subscription}
    (h : ∀ e ∈ sub.events, e.subscription = sub.id ∧ ∃ k < n, e.id = ids k) :
    Scratch ids n [sub] where
  own := by
    intro sub' hsub' e he
    rw [List.mem_singleton.1 hsub'] at he ⊢
    exact (h e he).1
  drawn := by
    intro sub' hsub' e he
    rw [List.mem_singleton.1 hsub'] at he
    exact (h e he).2
  agree := by
    intro sub₁ h₁ sub₂ h₂ _ _ _ _ _
    rw [List.mem_singleton.1 h₁, List.mem_singleton.1 h₂]

end Scratch

/-! ## Creations -/

theorem Engine.phaseDrafts_type {i : SubscriptionId} {schedule : Schedule} {d : Draft}
    (h : d ∈ phaseDrafts i schedule) : d.payload.type = .phase := by
  obtain ⟨p, -, rfl⟩ := List.mem_map.1 h
  rfl

/-- An add-on takes the start of a base plan of the bundle, a base-like subscription its own. -/
theorem Engine.bundleStartFor_eq_ok {bundle : BundleId} {existing : List Subscription}
    {category : Category} {effective date : Instant}
    (h : bundleStartFor bundle existing category effective = .ok date) :
    (category.isBaseLike = true → date = effective) ∧
      (category.isBaseLike = false →
        ∃ base ∈ existing, base.isBaseLike = true ∧ date = base.start) := by
  unfold bundleStartFor at h
  split at h
  next hkind =>
    split at h
    · cases h
    · cases h
      exact ⟨fun _ => rfl, fun hno => by rw [hkind] at hno; cases hno⟩
  next hkind =>
    split at h
    next base hbase =>
      cases h
      refine ⟨fun hyes => (hkind hyes).elim,
        fun _ => ⟨base, List.mem_of_find?_eq_some hbase, ?_, rfl⟩⟩
      have hcategory := List.find?_some hbase
      simp only [Bool.and_eq_true, beq_iff_eq] at hcategory
      rw [Subscription.isBaseLike, hcategory.1]
      rfl
    · cases h

theorem Engine.newSubscription_eq_ok {e : Engine} {context : CallContext} {now : Instant}
    {bundle : BundleId} {spec : PlanSpec} {s : Store} {sub : Subscription}
    (h : e.newSubscription context now bundle spec s = .ok sub) :
    ∃ plan bundleStart schedule,
      e.catalog.findPlan spec (context.requested.getD now) = .ok plan ∧
      bundleStartFor bundle (s.subscriptionsOf bundle) plan.product.category
        (context.requested.getD now) = .ok bundleStart ∧
      e.catalog.alignOnCreate ⟨bundleStart, context.requested.getD now⟩ plan none spec.priceList
        (context.requested.getD now) (context.requested.getD now) = .ok schedule ∧
      sub = {
        id := (e.supply s).subscription 0, bundle, category := plan.product.category,
        start := context.requested.getD now, bundleStart,
        alignStart := context.requested.getD now, chargedThrough := none, version := 1,
        events := Stamp.events ⟨context.requested.getD now, now, context.createdBy⟩
          (e.supply s).event
          (⟨(e.supply s).subscription 0, context.requested.getD now,
              .create ⟨plan.name, schedule.current.phase.name, spec.priceList⟩⟩ ::
            phaseDrafts ((e.supply s).subscription 0) schedule) } := by
  simp only [newSubscription, bind_eq_ok, liftCatalog_eq_ok, pure_eq_ok] at h
  obtain ⟨b, -, plan, hplan, bundleStart, hbundle, schedule, hschedule, rfl⟩ := h
  exact ⟨plan, bundleStart, schedule, hplan, hbundle, hschedule, rfl⟩

theorem Engine.bundle_of_newSubscription {e : Engine} {context : CallContext} {now : Instant}
    {bundle : BundleId} {spec : PlanSpec} {s : Store} {sub : Subscription}
    (h : e.newSubscription context now bundle spec s = .ok sub) : sub.bundle = bundle := by
  obtain ⟨_, _, _, -, -, -, rfl⟩ := newSubscription_eq_ok h
  rfl

theorem Engine.newSubscription_scratch {e : Engine} {context : CallContext} {now : Instant}
    {bundle : BundleId} {spec : PlanSpec} {s : Store} {sub : Subscription}
    (h : e.newSubscription context now bundle spec s = .ok sub) :
    Scratch (e.supply s).event sub.events.length [sub] := by
  obtain ⟨plan, bundleStart, schedule, -, -, -, rfl⟩ := newSubscription_eq_ok h
  apply Scratch.singleton
  intro f hf
  obtain ⟨d, hd, k, hk, rfl⟩ := Stamp.mem_events hf
  refine ⟨?_, k, by rwa [Stamp.length_events], rfl⟩
  rcases List.mem_cons.1 hd with rfl | hd
  · rfl
  · obtain ⟨phase, -, rfl⟩ := List.mem_map.1 hd
    rfl

theorem Engine.newSubscription_type {e : Engine} {context : CallContext} {now : Instant}
    {bundle : BundleId} {spec : PlanSpec} {s : Store} {sub : Subscription}
    (h : e.newSubscription context now bundle spec s = .ok sub) :
    ∀ f ∈ sub.events, f.type = .create ∨ f.type = .phase := by
  obtain ⟨plan, bundleStart, schedule, -, -, -, rfl⟩ := newSubscription_eq_ok h
  intro f hf
  obtain ⟨d, hd, k, -, rfl⟩ := Stamp.mem_events hf
  rcases List.mem_cons.1 hd with rfl | hd
  · exact .inl rfl
  · exact .inr (phaseDrafts_type hd)

theorem Engine.newSubscription_type_ne {e : Engine} {context : CallContext} {now : Instant}
    {bundle : BundleId} {spec : PlanSpec} {s : Store} {sub : Subscription}
    (h : e.newSubscription context now bundle spec s = .ok sub) :
    ∀ f ∈ sub.events, f.type ≠ .cancel := by
  intro f hf
  rcases newSubscription_type h f hf with htype | htype <;> rw [htype] <;> nofun

/-! ## Imports -/

theorem billingMarker?_eq_some {events : List Event} {category : Category}
    {start chargedThrough : Instant} {payload : Payload}
    (h : billingMarker? events category start chargedThrough = some payload) :
    ∃ target, payload = .migrateBilling target := by
  unfold billingMarker? at h
  split at h
  · cases h
  · split at h
    · cases h
    · split at h
      · cases h
      · obtain ⟨target, -, rfl⟩ := Option.map_eq_some_iff.1 h
        exact ⟨target, rfl⟩

theorem Catalog.alignCases_eq_ok {catalog : Catalog} {cases : List MigrationCase} {now : Instant}
    {events : List TimedPayload} (h : catalog.alignCases cases now = .ok events) :
    ∃ last aligned place ending, (sortBy MigrationCase.dateLe cases).getLast? = some last ∧
      catalog.alignEach now none (sortBy MigrationCase.dateLe cases) = .ok (aligned, place) ∧
      alignEnd last place = .ok ending ∧ events = aligned ++ ending := by
  simp only [alignCases] at h
  split at h
  · simp [throw_ne_ok] at h
  next last hlast =>
    split at h
    · simp [bind_eq_ok, throw_ne_ok] at h
    · simp only [bind_eq_ok, liftCatalog_eq_ok, pure_eq_ok] at h
      obtain ⟨⟨aligned, place⟩, haligned, ending, hending, rfl⟩ := h
      exact ⟨last, aligned, place, ending, hlast, haligned, hending, rfl⟩

namespace ImportContext

variable {cx : ImportContext}

/-- The billing marker, if there is one, goes somewhere among the events. -/
theorem addMarker_cases (cx : ImportContext) (id : EventId) (i : SubscriptionId)
    (m : SubscriptionMigration) (start : Instant) (events : List Event) :
    cx.addMarker id i m start events = events ∨
      ∃ date target front back, events = front ++ back ∧ cx.addMarker id i m start events =
        front ++ cx.stamp.event id ⟨i, date, .migrateBilling target⟩ :: back := by
  unfold addMarker
  split
  · exact .inl rfl
  next date _ =>
    split
    · exact .inl rfl
    next payload hpayload =>
      obtain ⟨target, rfl⟩ := billingMarker?_eq_some hpayload
      exact .inr ⟨date, target, _, _, (List.take_append_drop _ _).symm, rfl⟩

theorem planSubscription_eq_ok {bundle : BundleId} {key : String} {bundleStart : Option Instant}
    {supply : Supply} {m : SubscriptionMigration} {sub : Subscription}
    (h : cx.planSubscription bundle key bundleStart supply m = .ok sub) :
    ∃ cases start bundleStart,
      cx.catalog.alignCases m.cases cx.stamp.now = .ok cases ∧
      cases.head?.map (·.effective) = some start ∧
      sub = {
        id := supply.subscription 0, bundle, category := m.category, start, bundleStart,
        alignStart := start, chargedThrough := m.chargedThrough, version := 1,
        events := cx.addMarker (supply.event cases.length) (supply.subscription 0) m start
          (cx.stamp.events supply.event
            (cases.map fun e => ⟨supply.subscription 0, e.effective, e.payload⟩)) } := by
  simp only [planSubscription, bind_eq_ok] at h
  obtain ⟨_, -, cases, hcases, h⟩ := h
  split at h
  · simp [throw_ne_ok] at h
  next start hstart =>
    split at h
    · simp [throw_ne_ok] at h
    next bundleStart' _ =>
      rw [pure_eq_ok] at h
      refine ⟨cases, start, bundleStart', hcases, ?_, ?_⟩
      · cases cases with
        | nil => simp [Stamp.events] at hstart
        | cons c cs => simpa [Stamp.events, Stamp.event] using hstart
      · simpa using h.symm

theorem planSubscription_scratch {bundle : BundleId} {key : String}
    {bundleStart : Option Instant} {supply : Supply} {m : SubscriptionMigration}
    {sub : Subscription} (h : cx.planSubscription bundle key bundleStart supply m = .ok sub) :
    Scratch supply.event sub.events.length [sub] := by
  obtain ⟨cases, start, bundleStart', -, -, rfl⟩ := planSubscription_eq_ok h
  apply Scratch.singleton
  intro e he
  simp only at he ⊢
  have hevents {e : Event} (he : e ∈ cx.stamp.events supply.event
      (cases.map fun e => ⟨supply.subscription 0, e.effective, e.payload⟩)) :
      e.subscription = supply.subscription 0 ∧ ∃ k < cases.length, e.id = supply.event k := by
    obtain ⟨d, hd, k, hk, rfl⟩ := Stamp.mem_events he
    obtain ⟨c, -, rfl⟩ := List.mem_map.1 hd
    rw [List.length_map] at hk
    exact ⟨rfl, k, hk, rfl⟩
  have hlength : (cx.stamp.events supply.event (cases.map fun e =>
      (⟨supply.subscription 0, e.effective, e.payload⟩ : Draft))).length = cases.length := by
    rw [Stamp.length_events, List.length_map]
  rcases addMarker_cases cx (supply.event cases.length) (supply.subscription 0) m start _ with
    hnone | ⟨date, target, front, back, hsplit, hmarker⟩
  · rw [hnone] at he ⊢
    rw [hlength]
    exact hevents he
  · rw [hsplit] at hlength hevents
    rw [hmarker] at he ⊢
    rw [List.length_append] at hlength
    rw [List.length_append, List.length_cons,
      show front.length + (back.length + 1) = cases.length + 1 by omega]
    rcases List.mem_append.1 he with he | he
    · obtain ⟨hsub, k, hk, hid⟩ := hevents (List.mem_append_left _ he)
      exact ⟨hsub, k, by omega, hid⟩
    · rcases List.mem_cons.1 he with rfl | he
      · exact ⟨rfl, cases.length, Nat.lt_succ_self _, rfl⟩
      · obtain ⟨hsub, k, hk, hid⟩ := hevents (List.mem_append_right _ he)
        exact ⟨hsub, k, by omega, hid⟩

theorem planSubscriptions_plans {bundle : BundleId} {key : String}
    {bundleStart : Option Instant} {supply supply' : Supply} {ms : List SubscriptionMigration}
    {subs : List Subscription} (hids : Function.Injective supply.event)
    (h : cx.planSubscriptions bundle key bundleStart supply ms = .ok (subs, supply')) :
    (∃ n k, supply' = supply.drop 0 n k ∧ Scratch supply.event k subs) ∧
      List.Forall₂ (fun m sub => ∃ bundleStart b n k,
        cx.planSubscription bundle key bundleStart (supply.drop b n k) m = .ok sub) ms subs := by
  induction ms generalizing bundleStart supply subs with
  | nil =>
    cases h
    exact ⟨⟨0, 0, (Supply.drop_zero _).symm, .nil⟩, .nil⟩
  | cons m ms ih =>
    simp only [planSubscriptions, bind_eq_ok, pure_eq_ok, Prod.mk.injEq] at h
    obtain ⟨sub, hsub, ⟨rest, _⟩, hrest, rfl, rfl⟩ := h
    obtain ⟨⟨n, k, rfl, hscratch⟩, heach⟩ := ih (fun _ _ h => Nat.add_left_cancel (hids h)) hrest
    refine ⟨⟨1 + n, sub.events.length + k, supply.drop_drop ..,
      (planSubscription_scratch hsub).append hids hscratch⟩, .cons ⟨bundleStart, 0, 0, 0, ?_⟩ ?_⟩
    · rwa [Supply.drop_zero]
    · refine heach.imp fun m' sub' ⟨bundleStart', b', n', k', hplan⟩ => ?_
      exact ⟨bundleStart', _, _, _, by rwa [Supply.drop_drop] at hplan⟩

/-- A planned bundle holds the subscriptions described for it, with identifiers out of the supply.
-/
def Plans (cx : ImportContext) (supply : Supply) (m : BundleMigration) (image : BundleImage) :
    Prop :=
  List.Forall₂ (fun m' sub => ∃ bundleStart b n k,
    cx.planSubscription image.bundle.id m.key bundleStart (supply.drop b n k) m' = .ok sub)
      (sortBy SubscriptionMigration.le m.subscriptions) image.subscriptions

theorem Plans.of_drop {supply : Supply} {b n k : Nat} {m : BundleMigration} {image : BundleImage}
    (h : cx.Plans (supply.drop b n k) m image) : cx.Plans supply m image := by
  refine List.Forall₂.imp (fun m' sub ⟨bundleStart, b', n', k', hplan⟩ => ?_) h
  exact ⟨bundleStart, _, _, _, by rwa [Supply.drop_drop] at hplan⟩

theorem planBundle_plans {account : AccountId} {supply supply' : Supply} {m : BundleMigration}
    {image : BundleImage} (hids : Function.Injective supply.event)
    (h : cx.planBundle account supply m = .ok (image, supply')) :
    image.bundle.id = supply.bundle 0 ∧ (∃ n k, supply' = supply.drop 1 n k ∧
      Scratch supply.event k image.subscriptions) ∧ cx.Plans supply m image := by
  simp only [planBundle, bind_eq_ok] at h
  obtain ⟨⟨subs, _⟩, hsubs, h⟩ := h
  split at h
  · simp [throw_ne_ok] at h
  · rw [pure_eq_ok] at h
    cases h
    obtain ⟨⟨n, k, rfl, hscratch⟩, heach⟩ :=
      planSubscriptions_plans (fun _ _ h => Nat.add_left_cancel (hids h)) hsubs
    refine ⟨rfl, ⟨n, k, by simp [Supply.drop_drop], ?_⟩,
      Plans.of_drop (b := 1) (n := 0) (k := 0) heach⟩
    simpa [Supply.drop] using hscratch

theorem planBundles_plans {account : AccountId} {supply : Supply} {ms : List BundleMigration}
    {images : List BundleImage} (hbundles : Function.Injective supply.bundle)
    (hids : Function.Injective supply.event)
    (h : cx.planBundles account supply ms = .ok images) :
    (images.map (·.bundle.id)).Nodup ∧ (∀ image ∈ images, ∃ n, image.bundle.id = supply.bundle n) ∧
      (∃ n, Scratch supply.event n (images.flatMap (·.subscriptions))) ∧
        List.Forall₂ (cx.Plans supply) ms images := by
  induction ms generalizing supply images with
  | nil =>
    cases h
    exact ⟨.nil, by simp, ⟨_, .nil⟩, .nil⟩
  | cons m ms ih =>
    simp only [planBundles, bind_eq_ok, pure_eq_ok] at h
    obtain ⟨⟨image, _⟩, himage, rest, hrest, rfl⟩ := h
    obtain ⟨hid, ⟨n, k, rfl, hfirst⟩, hplans⟩ := planBundle_plans hids himage
    dsimp only at hrest ⊢
    obtain ⟨hnodup, hdrawn, ⟨k', hscratch⟩, hrest⟩ := ih
      (fun _ _ h => Nat.add_left_cancel (hbundles h)) (fun _ _ h => Nat.add_left_cancel (hids h))
      hrest
    refine ⟨List.nodup_cons.2 ⟨fun hmem => ?_, hnodup⟩, List.forall_mem_cons.2 ⟨⟨0, hid⟩, ?_⟩,
      ⟨k + k', hfirst.append hids hscratch⟩, .cons hplans (hrest.imp fun _ _ h => h.of_drop)⟩
    · obtain ⟨other, hother, hsame⟩ := List.mem_map.1 hmem
      obtain ⟨n', hn'⟩ := hdrawn other hother
      have := hbundles (hid.symm.trans (hsame.symm.trans hn'))
      omega
    · intro other hother
      obtain ⟨n', hn'⟩ := hdrawn other hother
      exact ⟨1 + n', hn'⟩

theorem planBundles_scratch {account : AccountId} {supply : Supply} {ms : List BundleMigration}
    {images : List BundleImage} (hbundles : Function.Injective supply.bundle)
    (hids : Function.Injective supply.event)
    (h : cx.planBundles account supply ms = .ok images) :
    (∃ n, Scratch supply.event n (images.flatMap (·.subscriptions))) ∧
      ∀ sub ∈ images.flatMap (·.subscriptions), ∃ bundle key bundleStart supply,
        ∃ m ∈ ms, ∃ m' ∈ m.subscriptions,
          cx.planSubscription bundle key bundleStart supply m' = .ok sub := by
  obtain ⟨-, -, hscratch, hplans⟩ := planBundles_plans hbundles hids h
  refine ⟨hscratch, fun sub hsub => ?_⟩
  obtain ⟨image, himage, hsub⟩ := List.mem_flatMap.1 hsub
  obtain ⟨m, hm, heach⟩ := exists_left_of_forall₂ hplans himage
  obtain ⟨m', hm', bundleStart, b, n, k, hplan⟩ := exists_left_of_forall₂ heach hsub
  exact ⟨image.bundle.id, m.key, bundleStart, supply.drop b n k, m, hm, m', mem_sortBy.1 hm', hplan⟩

end ImportContext

theorem planMigration_eq_ok {catalog : Catalog} {migration : AccountMigration}
    {existing : List Bundle} {context : CallContext} {now : Instant} {supply : Supply}
    {images : List BundleImage}
    (h : planMigration catalog migration existing context now supply = .ok images) :
    ImportContext.planBundles ⟨catalog, .ofContext context now⟩ migration.account supply
      migration.bundles = .ok images := by
  unfold planMigration at h
  split at h
  · cases h
  · exact h

/-! ## Transfers -/

theorem Subscription.transferred?_eq_some {sub moved : Subscription} {stamp : Stamp}
    {bundle : BundleId} {date : Instant} {supply : Supply}
    (h : sub.transferred? stamp bundle date supply = some moved) :
    ∃ start target, sub.opening? date = some (start, target) ∧
      moved = {
        id := supply.subscription 0, bundle, category := sub.category, start,
        bundleStart := sub.bundleStart, alignStart := sub.alignStart,
        chargedThrough := sub.chargedThrough, version := 1,
        events := stamp.events supply.event (⟨supply.subscription 0, start, .transfer target⟩ ::
          (sub.ahead start).map fun e => ⟨supply.subscription 0, e.effective, e.payload⟩) } := by
  obtain ⟨⟨start, target⟩, hopening, rfl⟩ := Option.map_eq_some_iff.1 h
  exact ⟨start, target, hopening, rfl⟩

theorem Subscription.transferred?_scratch {sub moved : Subscription} {stamp : Stamp}
    {bundle : BundleId} {date : Instant} {supply : Supply}
    (h : sub.transferred? stamp bundle date supply = some moved) :
    Scratch supply.event moved.events.length [moved] := by
  obtain ⟨start, target, -, rfl⟩ := transferred?_eq_some h
  apply Scratch.singleton
  intro e he
  obtain ⟨d, hd, k, hk, rfl⟩ := Stamp.mem_events he
  rcases List.mem_cons.1 hd with rfl | hd
  · exact ⟨rfl, k, by rwa [Stamp.length_events], rfl⟩
  · obtain ⟨c, -, rfl⟩ := List.mem_map.1 hd
    exact ⟨rfl, k, by rwa [Stamp.length_events], rfl⟩

theorem mem_transferAll {stamp : Stamp} {bundle : BundleId} {date : Instant} {supply : Supply}
    {subs : List Subscription} {moved : Subscription}
    (h : moved ∈ (transferAll stamp bundle date supply subs).1) :
    ∃ sub ∈ subs, ∃ supply, sub.transferred? stamp bundle date supply = some moved := by
  induction subs generalizing supply with
  | nil => cases h
  | cons sub subs ih =>
    unfold transferAll at h
    split at h
    · obtain ⟨sub', hsub', hmoved⟩ := ih h
      exact ⟨sub', .tail _ hsub', hmoved⟩
    next first hfirst =>
      rcases List.mem_cons.1 h with rfl | h
      · exact ⟨sub, .head _, supply, hfirst⟩
      · obtain ⟨sub', hsub', hmoved⟩ := ih h
        exact ⟨sub', .tail _ hsub', hmoved⟩

theorem transferAll_own {stamp : Stamp} {bundle : BundleId} {date : Instant} {supply : Supply}
    {subs : List Subscription} : ∀ moved ∈ (transferAll stamp bundle date supply subs).1,
      ∀ e ∈ moved.events, e.subscription = moved.id := by
  intro moved hmem
  obtain ⟨sub, -, supply, hmoved⟩ := mem_transferAll hmem
  exact (Subscription.transferred?_scratch hmoved).own moved (.head _)

theorem transferAll_scratch {stamp : Stamp} {bundle : BundleId} {date : Instant}
    {supply : Supply} {subs : List Subscription} (hids : Function.Injective supply.event) :
    ∃ n k, (transferAll stamp bundle date supply subs).2 = supply.drop 0 n k ∧
      Scratch supply.event k (transferAll stamp bundle date supply subs).1 := by
  induction subs generalizing supply with
  | nil => exact ⟨0, 0, supply.drop_zero.symm, .nil⟩
  | cons sub subs ih =>
    unfold transferAll
    split
    · exact ih hids
    next moved hmoved =>
      obtain ⟨n, k, hsupply, hscratch⟩ := @ih (supply.drop 0 1 moved.events.length)
        fun _ _ h => Nat.add_left_cancel (hids h)
      exact ⟨1 + n, moved.events.length + k, hsupply.trans (supply.drop_drop ..),
        (Subscription.transferred?_scratch hmoved).append hids hscratch⟩

theorem planTransfer_eq_ok {source : Bundle} {subs : List Subscription}
    {request : TransferRequest} {context : CallContext} {now : Instant} {supply : Supply}
    {plan : TransferPlan}
    (h : planTransfer source subs request context now supply = .ok plan) :
    ∃ base, (request.carried subs).find? (·.isBaseLike) = some base ∧
      plan.image.subscriptions = (transferAll (.ofContext context now) (supply.bundle 0)
        request.date supply (request.carried subs)).1 ∧
      plan.cancels = (Stamp.ofContext context now).events
        (transferAll (.ofContext context now) (supply.bundle 0) request.date supply
          (request.carried subs)).2.event
        (cancelAll subs (request.cancelDate base)) := by
  unfold planTransfer at h
  simp only at h
  split at h
  · cases h
  next base hbase =>
    cases h
    exact ⟨base, hbase, rfl, rfl⟩

theorem bundle_of_planTransfer {source : Bundle} {subs : List Subscription}
    {request : TransferRequest} {context : CallContext} {now : Instant} {supply : Supply}
    {plan : TransferPlan}
    (h : planTransfer source subs request context now supply = .ok plan) :
    plan.image.bundle.id = supply.bundle 0 := by
  unfold planTransfer at h
  simp only at h
  split at h <;> cases h
  rfl

/-- A transfer cancels subscriptions of the bundle that it moves, and nothing else. -/
theorem cancels_of_planTransfer {source : Bundle} {subs : List Subscription}
    {request : TransferRequest} {context : CallContext} {now : Instant} {supply : Supply}
    {plan : TransferPlan}
    (h : planTransfer source subs request context now supply = .ok plan) {e : Event}
    (he : e ∈ plan.cancels) : e.type = .cancel ∧ ∃ sub ∈ subs, sub.id = e.subscription := by
  obtain ⟨base, -, -, hcancels⟩ := planTransfer_eq_ok h
  rw [hcancels] at he
  obtain ⟨d, hd, k, -, rfl⟩ := Stamp.mem_events he
  obtain ⟨sub, hsub, hd⟩ := List.mem_filterMap.1 hd
  obtain ⟨date, -, rfl⟩ := Option.map_eq_some_iff.1 hd
  exact ⟨rfl, sub, hsub, rfl⟩

end Tenure
