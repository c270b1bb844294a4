import Tenure.Proofs.TermSteps

/-!
# Creating a bundle's subscriptions

A creation that can be planned is also carried out (`Engine.createSubscription_ok`): identifiers are
given out anew, so nothing in the store stands in its way. What is read back of it comes to a
*blueprint*, which the catalog draws from the order and the start of the bundle alone
(`Order.blueprint`).

In an empty bundle a base plan can be created. It starts the bundle and is active from then on, so
that add-ons can be created for any later date, one after the other (`Engine.creates_ok`).
-/

namespace Tenure

/-! ## Blueprints -/

/-- An event as part of a history built from nothing, whichever way that came about. -/
def Payload.afresh : Payload → Payload
  | .reCreate t => .create t
  | p => p

/-- What a subscription is built as: the dates that its phases are laid out from, and what its
events say. -/
@[ext] structure Blueprint where
  category : Category
  start : Instant
  bundleStart : Instant
  alignStart : Instant
  script : List TimedPayload
  deriving DecidableEq

def Subscription.blueprint (sub : Subscription) : Blueprint where
  category := sub.category
  start := sub.start
  bundleStart := sub.bundleStart
  alignStart := sub.alignStart
  script := sub.events.map fun e => ⟨e.effective, e.payload.afresh⟩

theorem Subscription.script_eq (sub : Subscription) : sub.blueprint.script =
    (sub.events.map (·.timed)).map fun x => ⟨x.effective, x.payload.afresh⟩ := by
  rw [List.map_map]
  rfl

/-- A call that orders a subscription to be created. -/
structure Order where
  context : CallContext
  now : Instant
  spec : PlanSpec

namespace Order

variable (o : Order) (catalog : Catalog) (bundleStart : Instant)

def date : Instant := o.context.requested.getD o.now

/-- The order is for a date in whole milliseconds. -/
def InMillis : Prop := o.date.floorMillis = o.date

/-- What the catalog makes of an order: a creation, and the phases that follow. -/
def blueprint : Except Error Blueprint := do
  let plan ← catalog.findPlan o.spec o.date
  let schedule ← catalog.alignOnCreate ⟨bundleStart, o.date⟩ plan none o.spec.priceList o.date
    o.date
  return {
    category := plan.product.category, start := o.date, bundleStart, alignStart := o.date
    script := ⟨o.date, .create ⟨plan.name, schedule.current.phase.name, o.spec.priceList⟩⟩ ::
      schedule.upcoming.map fun p => ⟨p.start.floorMillis, .phase p.phase.name⟩ }

variable {o catalog bundleStart}

theorem blueprint_eq_ok {bp : Blueprint} :
    o.blueprint catalog bundleStart = .ok bp ↔ ∃ plan schedule,
      catalog.findPlan o.spec o.date = .ok plan ∧
      catalog.alignOnCreate ⟨bundleStart, o.date⟩ plan none o.spec.priceList o.date o.date =
        .ok schedule ∧
      bp = {
        category := plan.product.category, start := o.date, bundleStart, alignStart := o.date
        script := ⟨o.date, .create ⟨plan.name, schedule.current.phase.name, o.spec.priceList⟩⟩ ::
          schedule.upcoming.map fun p => ⟨p.start.floorMillis, .phase p.phase.name⟩ } := by
  simp only [blueprint, bind_eq_ok, liftCatalog_eq_ok, pure_eq_ok, exists_and_left,
    eq_comm (a := bp)]

end Order

/-! ## Writing a subscription -/

namespace Store

variable {s : Store}

theorem insertRecord_ok {r : SubscriptionRecord} (version : Nat)
    (hnew : ∀ q ∈ s.records, q.id ≠ r.id) (hbundle : ∃ b ∈ s.bundles, b.id = r.bundle) :
    ∃ t, s.insertRecord r version = .ok t := by
  have hclash : (s.records.any (·.id == r.id) || !s.bundles.any (·.id == r.bundle)) = false := by
    rw [Bool.or_eq_false_iff, Bool.not_eq_false', List.any_eq_true]
    exact ⟨by simpa using hnew, by simpa using hbundle⟩
  rw [insertRecord, hclash]
  exact ⟨_, rfl⟩

theorem nodup_marks_of_new (hs : s.Tidy) {es : List Event} (version : Nat)
    (hunused : ∀ f ∈ s.events, ∀ e ∈ es, f.id ≠ e.id) (hids : (es.map (·.id)).Nodup) :
    (s.events.map (fun e => (e.id, e.version)) ++
      es.map fun e => (e.id, version)).Nodup := by
  refine List.nodup_append.2 ⟨hs.marks, ?_, ?_⟩
  · have hpairs : (es.map fun e : Event => (e.id, version)) =
        (es.map (·.id)).map (·, version) := by
      rw [List.map_map]
      rfl
    rw [hpairs]
    exact hids.map fun _ _ h => congrArg Prod.fst h
  · rintro _ hold _ hfresh heq
    obtain ⟨f, hf, rfl⟩ := List.mem_map.1 hold
    obtain ⟨e, he, rfl⟩ := List.mem_map.1 hfresh
    exact hunused f hf e he (Prod.mk.inj heq).1

theorem createSubscription_ok {sub : Subscription} (now : Instant) (hs : s.Tidy)
    (hnew : ∀ q ∈ s.records, q.id ≠ sub.id) (hbundle : ∃ b ∈ s.bundles, b.id = sub.bundle)
    (hown : ∀ e ∈ sub.events, e.subscription = sub.id)
    (hunused : ∀ f ∈ s.events, ∀ e ∈ sub.events, f.id ≠ e.id)
    (hids : (sub.events.map (·.id)).Nodup) :
    ∃ t, s.createSubscription sub now =
      .ok (t.visible (sub.toSubscriptionRecord.filed 1), t) := by
  obtain ⟨u, hu⟩ := insertRecord_ok 1 hnew hbundle
  have urows := insertRecord_rows hu
  have huown : ∀ e ∈ sub.events, ∃ r ∈ u.records, r.id = e.subscription := by
    intro e he
    rw [urows.records]
    exact ⟨_, List.mem_append_right _ (List.mem_singleton_self _), (hown e he).symm⟩
  have huevents : u.events = s.events := by simpa [filing] using urows.events
  obtain ⟨v, hv⟩ := insertEvents_ok huown
    (huevents ▸ nodup_marks_of_new hs 1 hunused hids)
  have vrows := urows.trans (insertEvents_rows hv)
  obtain ⟨w, hw⟩ := touch_ok now (vrows.bundle hbundle)
  have wrows := vrows.trans (touch_rows hw)
  have hread : w.subscription? sub.id =
      some (w.visible (sub.toSubscriptionRecord.filed 1)) := by
    refine (subscription?_eq_some (wrows.tidy hs)).2
      ⟨sub.toSubscriptionRecord.filed 1, ?_, rfl, rfl⟩
    rw [wrows.records]
    simp
  refine ⟨w, bind_eq_ok.2 ⟨u, hu, bind_eq_ok.2 ⟨v, hv, bind_eq_ok.2 ⟨w, hw, ?_⟩⟩⟩⟩
  rw [hread]
  rfl

end Store

/-! ## Carrying out an order -/

namespace Engine

variable {e : Engine} {s t : Store} {b : BundleId} {o : Order} {start : Instant} {bp : Blueprint}
  {sub : Subscription}

theorem createSubscription_ok (hs : s.Sound) (hattempts : e.settings.attempts ≠ 0)
    (hb : ∃ c ∈ s.bundles, c.id = b)
    (hplanned : e.newSubscription o.context o.now b o.spec s = .ok sub) :
    ∃ t, e.createSubscription o.context o.now b o.spec s =
        (.ok (t.visible (sub.toSubscriptionRecord.filed 1)), t) ∧
      Rows s t id (Store.scratchRecords [sub]) (Store.scratchEvents [sub]) := by
  have hscratch := newSubscription_scratch hplanned
  have hfresh := e.supply_fresh s
  have hids : (sub.events.map (·.id)).Nodup ∧ sub.id = (e.supply s).subscription 0 := by
    obtain ⟨_, _, _, -, -, -, rfl⟩ := newSubscription_eq_ok hplanned
    exact ⟨Stamp.nodup_ids _ hfresh.events.injective _, rfl⟩
  have hnew : ∀ q ∈ s.records, q.id ≠ sub.id := by
    intro q hq
    rw [hids.2]
    exact hfresh.records.ne q hq 0
  have hunused : ∀ f ∈ s.events, ∀ g ∈ sub.events, f.id ≠ g.id := by
    intro f hf g hg
    obtain ⟨n, -, hn⟩ := hscratch.drawn sub (by simp) g hg
    rw [hn]
    exact hfresh.events.ne f hf n
  obtain ⟨u, hu⟩ := Store.createSubscription_ok (s := s.held (e.lockOf b 0)) o.now
    (hs.tidy.withLocks _) hnew (bundle_of_newSubscription hplanned ▸ hb)
    (hscratch.own sub (by simp)) hunused hids.1
  have hrows : Rows s (u.unlock b e.owner) id _ _ :=
    (Store.createSubscription_rows hu).released hs.unlocked
  have hheld : e.newSubscription o.context o.now b o.spec (s.held (e.lockOf b 0)) = .ok sub :=
    hplanned
  refine ⟨u.unlock b e.owner, ?_, by simpa [Store.scratchRecords, Store.scratchEvents] using hrows⟩
  rw [createSubscription, locked_eq hs.unlocked hattempts]
  simp only [bind, Except.bind, hheld, hu]
  rfl

theorem newSubscription_ok (hb : ∃ c ∈ s.bundles, c.id = b)
    (hbp : o.blueprint e.catalog start = .ok bp)
    (hstart : bundleStartFor b (s.subscriptionsOf b) bp.category o.date = .ok start) :
    ∃ sub, e.newSubscription o.context o.now b o.spec s = .ok sub := by
  obtain ⟨plan, schedule, hplan, halign, rfl⟩ := Order.blueprint_eq_ok.1 hbp
  obtain ⟨c, hc⟩ : ∃ c, s.bundle? b = some c := by
    refine Option.isSome_iff_exists.1 (List.find?_isSome.2 ?_)
    simpa using hb
  have hbundle : Engine.bundle s b = .ok c := by rw [Engine.bundle, hc]
  unfold newSubscription
  exact ⟨_, bind_eq_ok.2 ⟨c, hbundle, bind_eq_ok.2 ⟨plan, liftCatalog_eq_ok.2 hplan,
    bind_eq_ok.2 ⟨start, hstart, bind_eq_ok.2 ⟨schedule, halign, rfl⟩⟩⟩⟩⟩

theorem blueprint_of_created (hplanned : e.newSubscription o.context o.now b o.spec s = .ok sub)
    (hbp : o.blueprint e.catalog start = .ok bp)
    (hstart : bundleStartFor b (s.subscriptionsOf b) bp.category o.date = .ok start)
    (hdate : o.InMillis) (hbegin : start.floorMillis = start) (ht : t.Tidy) {n : Nat}
    (hlaid : Laid n (t.shown (sub.toSubscriptionRecord.filed 1)) (sub.events.map (·, 1))) :
    (t.visible (sub.toSubscriptionRecord.filed 1)).blueprint = bp := by
  obtain ⟨plan, schedule, hplan, halign, rfl⟩ := Order.blueprint_eq_ok.1 hbp
  obtain ⟨plan', start', schedule', hplan', hstart', halign', rfl⟩ := newSubscription_eq_ok hplanned
  obtain rfl := Except.ok.inj (hplan.symm.trans hplan')
  obtain rfl := Except.ok.inj (hstart.symm.trans hstart')
  obtain rfl := Except.ok.inj (halign.symm.trans halign')
  refine Blueprint.ext rfl hdate hbegin hdate ?_
  have hdown := Instant.roundsDown_of_floorMillis hdate
  have hphases := Catalog.alignOnCreate_keeps Duration.keeps_roundsDown halign
    (Instant.roundsDown_of_floorMillis hbegin) hdown hdown
  have hpairs := Stamp.map_draft_events ⟨o.date, o.now, o.context.createdBy⟩ (e.supply s).event
    (⟨(e.supply s).subscription 0, o.date,
        .create ⟨plan.name, schedule.current.phase.name, o.spec.priceList⟩⟩ ::
      phaseDrafts ((e.supply s).subscription 0) schedule)
  rw [Subscription.script_eq, hlaid.timed_visible ht (.of_roundsDown
    (Stamp.pairwise_events _ _ (pairwise_drafts (Catalog.alignOnCreate_seenAt halign) _))
    (Stamp.events_dated (P := Instant.RoundsDown)
      (List.forall_mem_cons.2 ⟨hdown, phaseDrafts_dated hphases⟩)))]
  have hscript := congrArg (List.map fun x => (⟨x.1.floorMillis, x.2.afresh⟩ : TimedPayload)) hpairs
  rw [List.map_map, List.map_map, List.map_cons, phaseDrafts, List.map_map] at hscript
  rw [List.map_map]
  refine hscript.trans (congrArg₂ List.cons ?_ rfl)
  exact congrArg (TimedPayload.mk · _) hdate

theorem isActiveAt_of_created (hplanned : e.newSubscription o.context o.now b o.spec s = .ok sub)
    (hdate : o.InMillis) (ht : t.Tidy) {n : Nat}
    (hlaid : Laid n (t.shown (sub.toSubscriptionRecord.filed 1)) (sub.events.map (·, 1)))
    {d : Instant} (hd : o.date ≤ d) :
    (t.visible (sub.toSubscriptionRecord.filed 1)).isActiveAt d = true := by
  obtain ⟨hopens, hend⟩ := newSubscription_opens hplanned hlaid (Store.shown_ids ht _)
    (Store.shown_orderings ht _)
  rw [Subscription.isActiveAt, isActiveAt, Store.standingAt_visible ht]
  refine (hopens.isActiveAt_iff _ d).2 ((Span.has_of_open hend).2 ?_)
  obtain ⟨_, _, _, -, -, -, rfl⟩ := newSubscription_eq_ok hplanned
  exact Int.le_trans (Int.le_of_eq (congrArg Instant.tick hdate)) hd

end Engine

/-- An order was carried out in a bundle: the bundle has one subscription more, which is built by
the blueprint and active from its start on. -/
structure Store.Gains (s t : Store) (b : BundleId) (made : Subscription) (bp : Blueprint) :
    Prop where
  sound : t.Sound
  bundle : ∃ c ∈ t.bundles, c.id = b
  members : ∀ x, x ∈ t.subscriptionsOf b ↔ x ∈ s.subscriptionsOf b ∨ x = made
  blueprint : made.blueprint = bp
  active : ∀ d, bp.start ≤ d → made.isActiveAt d = true

/-- **An order is carried out** if the catalog can draw its blueprint for the start of the bundle
that the subscription is to have. -/
theorem Engine.gains {e : Engine} {s : Store} {b : BundleId} {o : Order} {start : Instant}
    {bp : Blueprint} (hs : s.Sound) (hattempts : e.settings.attempts ≠ 0)
    (hb : ∃ c ∈ s.bundles, c.id = b) (hbp : o.blueprint e.catalog start = .ok bp)
    (hstart : bundleStartFor b (s.subscriptionsOf b) bp.category o.date = .ok start)
    (hdate : o.InMillis) (hbegin : start.floorMillis = start) :
    ∃ made t, e.createSubscription o.context o.now b o.spec s = (.ok made, t) ∧
      s.Gains t b made bp := by
  obtain ⟨sub, hplanned⟩ := newSubscription_ok hb hbp hstart
  obtain ⟨t, hcall, hrows⟩ := createSubscription_ok hs hattempts hb hplanned
  have hscratch := newSubscription_scratch hplanned
  have ht := (Effect.ofScratch hrows hs.tidy (e.supply_fresh s).events hscratch).sound hs
  have hlaid := hrows.laid_scratch hs.tidy hscratch.own sub (List.mem_singleton_self _)
  refine ⟨_, t, hcall, ht, hrows.bundle hb, fun x => ?_,
    blueprint_of_created hplanned hbp hstart hdate hbegin ht.tidy hlaid, fun d hd => ?_⟩
  · have hold : ∀ r ∈ s.records, t.visible r = s.visible r := fun r hr =>
      Store.visible_congr (hrows.shown_beside hs.tidy hscratch.own hr)
    simp only [Store.mem_subscriptionsOf, hrows.records, List.map_id, List.mem_append]
    constructor
    · rintro ⟨r, hr | hr, hrb, rfl⟩
      · exact .inl ⟨r, hr, hrb, (hold r hr).symm⟩
      · rw [List.mem_singleton.1 hr]
        exact .inr rfl
    · rintro (⟨r, hr, hrb, rfl⟩ | rfl)
      · exact ⟨r, .inl hr, hrb, hold r hr⟩
      · exact ⟨_, .inr (List.mem_singleton_self _), bundle_of_newSubscription hplanned, rfl⟩
  · obtain ⟨plan, schedule, -, -, rfl⟩ := Order.blueprint_eq_ok.1 hbp
    exact isActiveAt_of_created hplanned hdate ht.tidy hlaid hd

/-! ## A bundle from nothing -/

/-- The bundle has a base plan that starts at `start` and is active from then on, and no other. -/
structure Store.Begun (s : Store) (b : BundleId) (start : Instant) : Prop where
  base : ∃ x ∈ s.subscriptionsOf b, x.category = .base ∧ ∀ d, start ≤ d → x.isActiveAt d = true
  sole : ∀ x ∈ s.subscriptionsOf b, x.category = .base → x.start = start

namespace Store.Begun

variable {s t : Store} {b : BundleId} {start date : Instant} {made : Subscription} {bp : Blueprint}

/-- An add-on takes its start of the bundle from there. -/
theorem bundleStartFor (h : s.Begun b start) (hle : start ≤ date) :
    Engine.bundleStartFor b (s.subscriptionsOf b) .addOn date = .ok start := by
  obtain ⟨x, hx, hbase, hactive⟩ := h.base
  have hsome : ((s.subscriptionsOf b).find? fun x =>
      x.category == .base && x.isActiveAt date).isSome = true :=
    List.find?_isSome.2 ⟨x, hx, by simp [hbase, hactive date hle]⟩
  obtain ⟨y, hy⟩ := Option.isSome_iff_exists.1 hsome
  have hkind := List.find?_some hy
  simp only [Bool.and_eq_true, beq_iff_eq] at hkind
  rw [Engine.bundleStartFor, if_neg (by decide), hy]
  exact congrArg Except.ok (h.sole y (List.mem_of_find?_eq_some hy) hkind.1)

/-- So it is once a base plan was created in an empty bundle, -/
theorem of_base (hempty : s.subscriptionsOf b = []) (h : s.Gains t b made bp)
    (hbase : bp.category = .base) : t.Begun b bp.start := by
  have hmembers (x : Subscription) : x ∈ t.subscriptionsOf b ↔ x = made := by
    rw [h.members, hempty]
    simp
  refine ⟨⟨made, (hmembers made).2 rfl, ?_, h.active⟩, fun x hx _ => ?_⟩
  · exact (congrArg (·.category) h.blueprint).trans hbase
  · rw [(hmembers x).1 hx]
    exact congrArg (·.start) h.blueprint

/-- and so it stays when add-ons are created. -/
theorem of_addOn (hbegun : s.Begun b start) (h : s.Gains t b made bp)
    (hadd : bp.category = .addOn) : t.Begun b start := by
  obtain ⟨x, hx, hbase⟩ := hbegun.base
  refine ⟨⟨x, (h.members x).2 (.inl hx), hbase⟩, fun y hy hkind => ?_⟩
  rcases (h.members y).1 hy with hy | rfl
  · exact hbegun.sole y hy hkind
  · cases hadd.symm.trans ((congrArg (·.category) h.blueprint).symm.trans hkind)

end Store.Begun

/-- Orders carried out one after the other, with what each call returned. -/
inductive Engine.Creates (e : Engine) (b : BundleId) :
    Store → List Order → List Subscription → Store → Prop
  | nil {s : Store} : Creates e b s [] [] s
  | cons {s t u : Store} {o : Order} {os : List Order} {made : Subscription}
      {others : List Subscription}
      (call : e.createSubscription o.context o.now b o.spec s = (.ok made, t))
      (next : Creates e b t os others u) : Creates e b s (o :: os) (made :: others) u

/-- An order for an add-on to a bundle that starts at `start`. -/
structure Order.Joins (o : Order) (catalog : Catalog) (start : Instant) (bp : Blueprint) :
    Prop where
  drawn : o.blueprint catalog start = .ok bp
  addOn : bp.category = .addOn
  later : start ≤ o.date
  inMillis : o.InMillis

namespace Engine

variable {e : Engine} {s : Store} {b : BundleId} {os : List Order} {bps : List Blueprint}

theorem creates_addOns {start : Instant} (hattempts : e.settings.attempts ≠ 0)
    (hbegin : start.floorMillis = start)
    (h : List.Forall₂ (fun o bp => o.Joins e.catalog start bp) os bps) (hs : s.Sound)
    (hb : ∃ c ∈ s.bundles, c.id = b) (hbegun : s.Begun b start) :
    ∃ made t, e.Creates b s os made t ∧ made.map (·.blueprint) = bps := by
  induction h generalizing s with
  | nil => exact ⟨[], s, .nil, rfl⟩
  | @cons o bp os bps hjoins _ ih =>
    obtain ⟨made, t, hcall, hgains⟩ := gains hs hattempts hb hjoins.drawn
      (hjoins.addOn ▸ hbegun.bundleStartFor hjoins.later) hjoins.inMillis hbegin
    obtain ⟨rest, u, hrest, hbps⟩ := ih hgains.sound hgains.bundle
      (hbegun.of_addOn hgains hjoins.addOn)
    exact ⟨made :: rest, u, .cons hcall hrest, congrArg₂ List.cons hgains.blueprint hbps⟩

/-- **A bundle from nothing.** In an empty bundle a base plan and its add-ons are created by the
blueprints that the catalog draws for the start of the base plan. -/
theorem creates_ok {o : Order} {bp : Blueprint} (hs : s.Sound)
    (hattempts : e.settings.attempts ≠ 0) (hb : ∃ c ∈ s.bundles, c.id = b)
    (hempty : s.subscriptionsOf b = []) (hbp : o.blueprint e.catalog o.date = .ok bp)
    (hbase : bp.category = .base) (hdate : o.InMillis)
    (h : List.Forall₂ (fun o' bp => o'.Joins e.catalog o.date bp) os bps) :
    ∃ made t, e.Creates b s (o :: os) made t ∧ made.map (·.blueprint) = bp :: bps := by
  have hstart : bundleStartFor b (s.subscriptionsOf b) bp.category o.date = .ok o.date := by
    rw [hempty, hbase]
    rfl
  obtain ⟨made, t, hcall, hgains⟩ := gains hs hattempts hb hbp hstart hdate hdate
  have hbegun := Store.Begun.of_base hempty hgains hbase
  have hbegin : bp.start = o.date := by
    obtain ⟨_, _, -, -, rfl⟩ := Order.blueprint_eq_ok.1 hbp
    rfl
  obtain ⟨rest, u, hrest, hbps⟩ := creates_addOns hattempts hdate h hgains.sound hgains.bundle
    (hbegin ▸ hbegun)
  exact ⟨made :: rest, u, .cons hcall hrest, congrArg₂ List.cons hgains.blueprint hbps⟩

end Engine

end Tenure
