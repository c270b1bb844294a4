import Tenure.Proofs.Creating
import Tenure.Proofs.SingleProposal

/-!
# Rebuilding a bundle

A repair that builds every subscription of a bundle anew leaves what the same orders would come to
in a new bundle. Both ways draw each subscription by one blueprint, off the date that the base plan
starts on:

* the repair moves the start of the bundle to its base plan (`Workbench.bundleStart_of_fulfils`),
  lays out each proposal from there and from its own date, and enters all phases that follow
  (`Planned.rebuilt`);
* the calls find the start of the bundle as that of the base plan created first
  (`Engine.creates_ok`). They find it active, because the repair lets no add-on start before it
  (`Workbench.le_of_fulfils`).
-/

namespace Tenure

/-! ## Proposals that carry out orders -/

/-- The order as a proposal to build anew. -/
def Order.proposal (o : Order) (type : EventType) : Proposal := ⟨type, o.date, some o.spec, none⟩

/-- The repair deletes all events that the subscription shows, and proposes nothing but to build it
anew as ordered. -/
structure Repair.Rebuilds (repair : Repair) (sub : Subscription) (o : Order) : Prop where
  deletes : ∀ e ∈ sub.effectiveEvents, repair.Deletes sub.id e.id
  proposes : ∃ type, type.isRecreation = true ∧
    repair.proposalsFor sub.id = [o.proposal type]
  inMillis : o.InMillis

/-- The subscription is to be built anew as ordered. -/
def Rework.Fulfils (w : Rework) (o : Order) : Prop :=
  ∃ type, type.isRecreation = true ∧ w.proposals = [o.proposal type]

namespace Rework.Fulfils

variable {w : Rework} {o : Order} (h : w.Fulfils o)

include h

theorem isRecreated : w.isRecreated = true := by
  obtain ⟨type, htype, hproposals⟩ := h
  rw [Rework.isRecreated, hproposals]
  exact htype

theorem isTouched : w.isTouched = true := by
  obtain ⟨type, -, hproposals⟩ := h
  simp [Rework.isTouched, hproposals]

theorem start_eq : w.start = o.date := by
  obtain ⟨type, htype, hproposals⟩ := h
  rw [Rework.start, hproposals]
  exact if_pos htype

theorem alignStart_eq : w.alignStart = o.date := by
  rw [Rework.alignStart, if_pos h.isRecreated, h.start_eq]

end Rework.Fulfils

namespace Planned

variable {b : Workbench} {cx : ReplayContext} {repair : Repair} {view : String}
  {works : List Rework} {plan : RepairPlan} {sub : Subscription} {w : Rework} {o : Order}

theorem exists_fulfilling (h : Planned b cx repair view works plan)
    (hload : Loaded b.subscriptions cx.ids) (hsub : sub ∈ b.subscriptions)
    (hrebuilds : repair.Rebuilds sub o) :
    ∃ w ∈ works, w.subscription = sub ∧ w.Fulfils o := by
  obtain ⟨type, htype, hproposals⟩ := hrebuilds.proposes
  obtain ⟨w, hw, hself, hone⟩ := h.exists_work_of_proposal hload hsub hproposals
  exact ⟨w, hw, hself, type, htype, hone⟩

/-- What a subscription built anew is given: the event that builds it, and the phases of its plan,
laid out from the start of the bundle and its own date. -/
theorem rebuilt (h : Planned b cx repair view works plan)
    (hload : Loaded b.subscriptions cx.ids) (hw : w ∈ works) (hfulfils : w.Fulfils o) :
    ∃ found schedule, cx.catalog.findPlan o.spec o.date = .ok found ∧
      found.product.category = w.subscription.category ∧
      cx.catalog.alignOnCreate ⟨cx.bundleStart, o.date⟩ found none o.spec.priceList o.date o.date =
        .ok schedule ∧
      w.events.map (fun e => (⟨e.effective, e.payload.afresh⟩ : TimedPayload)) =
        ⟨o.date, .create ⟨found.name, schedule.current.phase.name, o.spec.priceList⟩⟩ ::
          schedule.upcoming.map fun p => ⟨p.start, .phase p.phase.name⟩ := by
  obtain ⟨type, htype, hproposals⟩ := id hfulfils
  have hkept : w.kept = [] := (h.work_prepared hw).recreated.1 hfulfils.isRecreated
  have hnone : w.owedPhases cx = .ok [] := by
    rw [Rework.owedPhases, if_pos (by simp [hfulfils.isRecreated])]
  obtain ⟨owed, before, payload, prospects, howed, hout, hadded⟩ := h.sequel hload hw hproposals
    (fun hcancel => by rw [show type = .cancel from hcancel] at htype; cases htype)
  obtain rfl : owed = [] := Except.ok.inj (howed.symm.trans hnone)
  rw [show before.added.map (·.timed) = [] from hout.entered, List.nil_append] at hadded
  have hscript : w.events.map (fun e => (⟨e.effective, e.payload.afresh⟩ : TimedPayload)) =
      (w.added.map (·.timed)).map fun x => ⟨x.effective, x.payload.afresh⟩ := by
    rw [Rework.events, hkept, List.nil_append, List.map_map]
    rfl
  rw [hscript, hadded, List.map_cons, List.map_map]
  cases hout.carried with
  | @creation found spec schedule _ hfound halign =>
    have halignStart : before.alignStart = o.date :=
      (congrArg Rework.alignStart hout.bare).trans hfulfils.alignStart_eq
    simp only [Rework.planFor, Order.proposal, bind_eq_ok, liftCatalog_eq_ok, guard_eq_ok, not_not,
      pure_eq_ok, Prod.mk.injEq] at hfound
    obtain ⟨_, hplan, hcategory, rfl, rfl⟩ := hfound
    rw [Rework.anchors, halignStart] at halign
    refine ⟨_, schedule, hplan,
      hcategory.trans (congrArg (·.subscription.category) hout.bare), halign,
      congrArg₂ List.cons ?_ ?_⟩
    · exact congrArg (TimedPayload.mk o.date) (by split <;> rfl)
    · rw [← List.map_map, Prospect.map_timed_ofSchedule (Catalog.alignOnCreate_seenAt halign),
        List.map_map]
      rfl
  | change hchange =>
    rw [show type = .change from hchange] at htype
    cases htype
  | cancel hcancel =>
    rw [show type = .cancel from hcancel] at htype
    cases htype

end Planned

namespace Workbench

variable {b : Workbench} {w : Rework} {o : Order}

theorem isBaseRecreated_of_fulfils (hbase : b.editedBase? = some w) (hfulfils : w.Fulfils o) :
    b.isBaseRecreated = true := by
  rw [isBaseRecreated, hbase]
  exact hfulfils.isRecreated

theorem bundleStart_of_fulfils (hbase : b.editedBase? = some w) (hfulfils : w.Fulfils o) :
    b.bundleStart = o.date := by
  have hfilter : b.editedBase?.filter (·.isRecreated) = some w := by
    rw [hbase, Option.filter_some, if_pos hfulfils.isRecreated]
  rw [bundleStart, hfilter]
  exact hfulfils.start_eq

theorem le_of_fulfils (hbase : b.editedBase? = some w) (hfulfils : w.Fulfils o)
    (hfault : b.fault? = none) {w' : Rework} (hw' : w' ∈ b.works) {o' : Order}
    (hfulfils' : w'.Fulfils o') (hadd : w'.subscription.category = .addOn) : o.date ≤ o'.date := by
  simp only [fault?, Option.or_eq_none_iff] at hfault
  have hnone := hfault.2.2.1
  rw [startFault?, baseStart?, hbase, Option.map_some, Option.some_or, Option.bind_some,
    Option.map_eq_none_iff, List.find?_eq_none] at hnone
  have hle := hnone w' hw'
  rw [hfulfils'.isRecreated, hfulfils'.start_eq, hfulfils.start_eq, hadd] at hle
  simpa [Instant.lt_def, Instant.le_def] using hle

end Workbench

/-! ## What is read back -/

namespace Planned

variable {bundle : Bundle} {benched : List Rework} {cx : ReplayContext} {repair : Repair}
  {view : String} {plan : RepairPlan} {s t : Store} {b : BundleId} {r : Replay} {w : Rework}
  {o : Order}

/-- A subscription built anew is read back by the blueprint that the catalog draws from the order
and the start of the bundle. -/
theorem blueprint_of_rebuilt
    (hp : Planned ⟨bundle, s.subscriptionsOf b, benched⟩ cx repair view r.works plan)
    (hs : s.Sound) (hids : Unused cx.ids (·.id) s.events) (hsweep : Sweep cx r [])
    (hrows : Rows s t (Store.reviseAll plan.commit.subscriptions) []
      (s.revised plan.commit.subscriptions))
    (hanchor : cx.bundleStart = Workbench.bundleStart ⟨bundle, s.subscriptionsOf b, benched⟩)
    (hbase : Workbench.isBaseRecreated ⟨bundle, s.subscriptionsOf b, benched⟩ = true)
    (hbegin : cx.bundleStart.floorMillis = cx.bundleStart)
    (hw : w ∈ r.works) (hfulfils : w.Fulfils o) (hdate : o.InMillis) :
    ∃ stored, t.subscription? w.id = some stored ∧
      o.blueprint cx.catalog cx.bundleStart = .ok stored.blueprint ∧
      stored.category = w.subscription.category := by
  have hload : Loaded (s.subscriptionsOf b) cx.ids := hs.loaded b hids
  obtain ⟨q, -, hvisible, hfound, hlaid⟩ :=
    hp.exists_revised hs hids hsweep hrows hw hfulfils.isTouched
  have hid : q.id = w.id := congrArg (·.id) hvisible
  have hrecord := Store.reviseAll_of_mem (hp.commit_ids hload)
    (hp.repaired_mem hw hfulfils.isTouched) hid
  obtain ⟨found, schedule, hplan, hcategory, halign, hscript⟩ := hp.rebuilt hload hw hfulfils
  have hkeeps : q.category = w.subscription.category := congrArg (·.category) hvisible
  refine ⟨_, hfound, Order.blueprint_eq_ok.2 ⟨found, schedule, hplan, halign, ?_⟩,
    (hrows.keeps q).2.2.trans hkeeps⟩
  have hdown : ∀ e ∈ w.events, e.effective.RoundsDown := by
    have hstart := Instant.roundsDown_of_floorMillis hdate
    have hphases := Catalog.alignOnCreate_keeps Duration.keeps_roundsDown halign
      (Instant.roundsDown_of_floorMillis hbegin) hstart hstart
    intro e he
    rcases List.mem_cons.1 (hscript ▸ List.mem_map_of_mem he) with hown | hphase
    · exact (TimedPayload.mk.inj hown).1 ▸ hstart
    · obtain ⟨p, hp, hown⟩ := List.mem_map.1 hphase
      exact (TimedPayload.mk.inj hown).1 ▸ hphases p (.tail _ hp)
  have hread := hlaid.timed_visible (hrows.tidy hs.tidy) ((hsweep.settled w hw).staysInOrder hdown)
  have hrevised : Store.reviseAll plan.commit.subscriptions q = _ :=
    hrecord.trans (if_pos (beq_iff_eq.2 hid))
  rw [hrevised] at hread ⊢
  refine Blueprint.ext (hkeeps.trans hcategory.symm) ?_ ?_ ?_ ?_
  · exact (congrArg Instant.floorMillis hfulfils.start_eq).trans hdate
  · refine (congrArg Instant.floorMillis (if_pos hbase)).trans ?_
    rw [← hanchor, hbegin]
  · exact (congrArg Instant.floorMillis hfulfils.alignStart_eq).trans hdate
  · have hfloored := congrArg
      (List.map fun x => (⟨x.effective.floorMillis, x.payload⟩ : TimedPayload)) hscript
    rw [List.map_map, List.map_cons, List.map_map] at hfloored
    rw [Subscription.script_eq, hread, List.map_map]
    refine hfloored.trans (congrArg₂ List.cons ?_ rfl)
    exact congrArg (TimedPayload.mk · _) hdate

/-- So it is with whatever the repair rebuilds, once it rebuilds the base plan. -/
theorem stored_of_rebuilds {catalog : Catalog} {context : CallContext} {now : Instant}
    {ids : Nat → EventId} (hids : Unused ids (·.id) s.events)
    (hp : Planned ⟨bundle, s.subscriptionsOf b, benched⟩ (Workbench.replayContext
      ⟨bundle, s.subscriptionsOf b, benched⟩ catalog context now ids) repair view r.works plan)
    (hs : s.Sound) (hrows : Rows s t (Store.reviseAll plan.commit.subscriptions) []
      (s.revised plan.commit.subscriptions))
    (hsweep : Sweep (Workbench.replayContext ⟨bundle, s.subscriptionsOf b, benched⟩ catalog context
      now ids) r [])
    (hedited : Workbench.editedBase? ⟨bundle, s.subscriptionsOf b, benched⟩ = some w)
    (hfulfils : w.Fulfils o) (hdate : o.InMillis) {sub : Subscription} {o' : Order}
    (hsub : sub ∈ s.subscriptionsOf b) (hrebuilds : repair.Rebuilds sub o') :
    ∃ stored, t.subscription? sub.id = some stored ∧
      o'.blueprint catalog o.date = .ok stored.blueprint ∧ stored.category = sub.category ∧
      (sub.category = .addOn → o.date ≤ o'.date) := by
  have hstart : Workbench.bundleStart ⟨bundle, s.subscriptionsOf b, benched⟩ = o.date :=
    Workbench.bundleStart_of_fulfils hedited hfulfils
  obtain ⟨w', hw', rfl, hfulfils'⟩ := hp.exists_fulfilling (hs.loaded b hids) hsub hrebuilds
  obtain ⟨stored, hfound, hdrawn, hcategory⟩ := hp.blueprint_of_rebuilt hs hids hsweep hrows rfl
    (Workbench.isBaseRecreated_of_fulfils hedited hfulfils)
    ((congrArg Instant.floorMillis hstart).trans (hdate.trans hstart.symm)) hw' hfulfils'
    hrebuilds.inMillis
  rw [show (Workbench.replayContext ⟨bundle, s.subscriptionsOf b, benched⟩ catalog context now
    ids).bundleStart = o.date from hstart] at hdrawn
  exact ⟨stored, hfound, hdrawn, hcategory, Workbench.le_of_fulfils hedited hfulfils hp.faultless
    (hp.bare_mem hw') hfulfils'⟩

end Planned

/-! ## The two ways compared -/

theorem Category.eq_addOn {c : Category} (h : c.isBaseLike = false) : c = .addOn := by
  cases c <;> first | rfl | cases h

/-- Related lists have a list between them if their entries do. -/
theorem exists_between {α β γ : Type} {R : α → β → Prop} {P : β → γ → Prop} {Q : α → γ → Prop}
    {xs : List α} {ys : List β} (h : List.Forall₂ R xs ys)
    (hbetween : ∀ x ∈ xs, ∀ y, R x y → ∃ z, P y z ∧ Q x z) :
    ∃ zs, List.Forall₂ P ys zs ∧ List.Forall₂ Q xs zs := by
  induction h with
  | nil => exact ⟨[], .nil, .nil⟩
  | @cons x y xs ys hxy _ ih =>
    obtain ⟨z, hyz, hxz⟩ := hbetween x (List.mem_cons_self ..) y hxy
    obtain ⟨zs, hys, hxs⟩ := ih fun x hx => hbetween x (List.mem_cons_of_mem _ hx)
    exact ⟨z :: zs, .cons hyz hys, .cons hxz hxs⟩

/-- **Rebuilding is building.** A repair that builds each subscription of a bundle anew, a base plan
with its add-ons, leaves them as the same orders would come to in an empty bundle: with the same
dates and the same events, whether these are said to create or to create again. The calls can all
be made, one after the other, the base plan first. -/
theorem rebuilt_as_created {s t u : Store} (hs : s.Reachable) (hu : u.Reachable) {e : Engine}
    {context : CallContext} {now : Instant} {b c : BundleId} {repair : Repair}
    {view : TimelineView} (h : e.repair context now b repair false s = (.ok view, t))
    {base : Subscription} {addOns : List Subscription}
    (hsubs : (base :: addOns).Perm (s.subscriptionsOf b)) (hbase : base.category = .base)
    (haddOns : ∀ sub ∈ addOns, sub.isBaseLike = false) {orders : List Order}
    (hrebuilds : List.Forall₂ repair.Rebuilds (base :: addOns) orders)
    (hbundle : ∃ x ∈ u.bundles, x.id = c) (hempty : u.subscriptionsOf c = []) :
    ∃ made v, e.Creates c u orders made v ∧
      List.Forall₂ (fun sub new => ∃ stored, t.subscription? sub.id = some stored ∧
        stored.blueprint = new.blueprint) (base :: addOns) made := by
  have hsound := hs.sound
  obtain ⟨hattempts, -⟩ := Engine.repair_eq_ok hsound h
  obtain ⟨bundle, benched, plan, r, hp, hsweep, hrows⟩ := Engine.repair_replayed hsound h
  have hload := hsound.loaded b (e.supply_fresh s).events
  have hmem {sub : Subscription} (hsub : sub ∈ base :: addOns) : sub ∈ s.subscriptionsOf b :=
    hsubs.mem_iff.1 hsub
  cases hrebuilds with
  | @cons _ o _ os hfirst hothers =>
  obtain ⟨w, hw, hself, hfulfils⟩ :=
    hp.exists_fulfilling hload (hmem (List.mem_cons_self ..)) hfirst
  have hedited := hp.editedBase?_eq hload hw
    (show w.subscription.isBaseLike = true by rw [hself, Subscription.isBaseLike, hbase]; rfl)
    fun x hx hkind => by
      rcases List.mem_cons.1 (hsubs.mem_iff.2 hx) with rfl | hx
      · exact hself.symm
      · rw [haddOns x hx] at hkind
        cases hkind
  have hread {sub : Subscription} {o' : Order} (hsub : sub ∈ base :: addOns)
      (hrebuilds : repair.Rebuilds sub o') :=
    hp.stored_of_rebuilds (e.supply_fresh s).events hsound hrows hsweep hedited hfulfils
      hfirst.inMillis (hmem hsub) hrebuilds
  obtain ⟨stored, hfound, hdrawn, hcategory, -⟩ := hread (List.mem_cons_self ..) hfirst
  obtain ⟨bps, hjoins, hbuilt⟩ := exists_between
    (P := fun o' bp => o'.Joins e.catalog o.date bp)
    (Q := fun sub bp => ∃ stored, t.subscription? sub.id = some stored ∧ stored.blueprint = bp)
    hothers fun sub hsub o' hrebuilds => by
      obtain ⟨stored, hfound, hdrawn, hcategory, hle⟩ :=
        hread (List.mem_cons_of_mem _ hsub) hrebuilds
      have hadd := Category.eq_addOn (haddOns sub hsub)
      exact ⟨_, ⟨hdrawn, hcategory.trans hadd, hle hadd, hrebuilds.inMillis⟩, stored, hfound, rfl⟩
  obtain ⟨made, v, hcreates, hmade⟩ := Engine.creates_ok hu.sound hattempts hbundle hempty hdrawn
    (hcategory.trans hbase) hfirst.inMillis hjoins
  have hall : List.Forall₂ (fun sub bp => ∃ stored, t.subscription? sub.id = some stored ∧
      stored.blueprint = bp) (base :: addOns) (made.map (·.blueprint)) := by
    rw [hmade]
    exact .cons ⟨stored, hfound, rfl⟩ hbuilt
  exact ⟨made, v, hcreates, List.forall₂_map_right_iff.1 hall⟩

namespace Sample

/-- A base plan with a trial from day 0 on, and an add-on from day 5 on. -/
def discounted : List Step :=
  trial ++ [step 5 (.createSubscription ⟨1⟩ ⟨"laser-scope", .monthly, "DEFAULT"⟩)]

/-- Another base plan on day 2, and the same add-on on day 10. -/
def reordered : List Order :=
  [⟨{ caller with requested := some (day 2) }, day 20, ⟨"shotgun", .monthly, "DEFAULT"⟩⟩,
    ⟨caller, day 10, ⟨"laser-scope", .monthly, "DEFAULT"⟩⟩]

/-- The repair of the bundle that comes to these orders. -/
def rebuild : Repair := ⟨"4-432000000",
  [⟨⟨1⟩, [⟨1⟩, ⟨2⟩], [⟨.reCreate, day 2, some ⟨"shotgun", .monthly, "DEFAULT"⟩, none⟩]⟩,
    ⟨⟨2⟩, [⟨3⟩, ⟨4⟩], [⟨.create, day 10, some ⟨"laser-scope", .monthly, "DEFAULT"⟩, none⟩]⟩]⟩

theorem rebuild_rebuilds {sub : Subscription} {x : Edit} (hx : x ∈ rebuild.edits)
    (hsub : sub.id = x.subscription ∧ sub.effectiveEvents.map (·.id) = x.deleted) {o : Order}
    (hproposes : ∃ type, type.isRecreation = true ∧
      rebuild.proposalsFor x.subscription = [o.proposal type])
    (hmillis : o.date.floorMillis = o.date) : rebuild.Rebuilds sub o where
  deletes _ he := ⟨x, hx, hsub.1.symm, hsub.2 ▸ List.mem_map_of_mem he⟩
  proposes := hsub.1.symm ▸ hproposes
  inMillis := hmillis

theorem rebuild_reordered {base addOn : Subscription}
    (hbase : base.id = ⟨1⟩ ∧ base.effectiveEvents.map (·.id) = [⟨1⟩, ⟨2⟩])
    (haddOn : addOn.id = ⟨2⟩ ∧ addOn.effectiveEvents.map (·.id) = [⟨3⟩, ⟨4⟩]) :
    List.Forall₂ rebuild.Rebuilds [base, addOn] reordered :=
  .cons (rebuild_rebuilds (List.mem_cons_self ..) hbase ⟨.reCreate, rfl, by decide⟩
      (by decide +kernel))
    (.cons (rebuild_rebuilds (List.mem_cons_of_mem _ (List.mem_cons_self ..)) haddOn
      ⟨.create, rfl, by decide⟩ (by decide +kernel)) .nil)

end Sample

/-- Built anew, the bundle starts with its base plan, and so does a new one. -/
theorem rebuilt_as_created_sample : ∃ made v,
    Sample.engine.Creates ⟨1⟩ (Sample.after [Sample.step 0 (.createBundle ⟨1⟩ "key")])
      Sample.reordered made v ∧ made.map (·.bundleStart) = [Sample.day 2, Sample.day 2] := by
  have hread : ((Sample.after Sample.discounted).subscriptionsOf ⟨1⟩).map (fun sub =>
      (sub.category, sub.id, sub.effectiveEvents.map (·.id))) =
      [(.base, ⟨1⟩, [⟨1⟩, ⟨2⟩]), (.addOn, ⟨2⟩, [⟨3⟩, ⟨4⟩])] := by
    decide +kernel
  have hok : (Sample.engine.repair Sample.caller (Sample.day 6) ⟨1⟩ Sample.rebuild false
      (Sample.after Sample.discounted)).1.toOption.isSome = true := by decide +kernel
  have hstored : ∀ i ∈ [(⟨1⟩ : SubscriptionId), ⟨2⟩], ((Sample.engine.repair Sample.caller
      (Sample.day 6) ⟨1⟩ Sample.rebuild false (Sample.after Sample.discounted)).2.subscription?
        i).map (·.bundleStart) = some (Sample.day 2) := by decide +kernel
  cases hres : Sample.engine.repair Sample.caller (Sample.day 6) ⟨1⟩ Sample.rebuild false
      (Sample.after Sample.discounted) with
  | mk res t =>
  rw [hres] at hok hstored
  cases res with
  | error err => cases hok
  | ok view =>
  obtain ⟨base, _, hsubs, hbase, hrest⟩ := List.map_eq_cons_iff.1 hread
  obtain ⟨addOn, _, rfl, haddOn, hrest⟩ := List.map_eq_cons_iff.1 hrest
  obtain rfl := List.map_eq_nil_iff.1 hrest
  obtain ⟨hbase, hbaseId, hbaseEvents⟩ := by simpa only [Prod.mk.injEq] using hbase
  obtain ⟨haddOn, haddOnId, haddOnEvents⟩ := by simpa only [Prod.mk.injEq] using haddOn
  obtain ⟨made, v, hcreates, hmade⟩ := rebuilt_as_created (Sample.reachable_after Sample.discounted)
    (Sample.reachable_after [Sample.step 0 (.createBundle ⟨1⟩ "key")]) hres
    (.of_eq hsubs.symm : [base, addOn].Perm _) hbase
    (fun sub hsub => by rw [List.mem_singleton.1 hsub, Subscription.isBaseLike, haddOn]; rfl)
    (Sample.rebuild_reordered ⟨hbaseId, hbaseEvents⟩ ⟨haddOnId, haddOnEvents⟩) (c := ⟨1⟩)
    (by decide +kernel) (by decide +kernel)
  refine ⟨made, v, hcreates, ?_⟩
  cases hmade with
  | cons hfirst hmade =>
  cases hmade with
  | cons hsecond hmade =>
  cases hmade
  have hstart {i : SubscriptionId} {new : Subscription} (hi : i ∈ [(⟨1⟩ : SubscriptionId), ⟨2⟩])
      (h : ∃ stored, t.subscription? i = some stored ∧ stored.blueprint = new.blueprint) :
      new.bundleStart = Sample.day 2 := by
    obtain ⟨stored, hfound, hsame⟩ := h
    have hday := hstored i hi
    rw [hfound] at hday
    exact (congrArg Blueprint.bundleStart hsame).symm.trans (Option.some.inj hday)
  rw [List.map_cons, List.map_singleton, hstart (hbaseId ▸ List.mem_cons_self ..) hfirst,
    hstart (haddOnId ▸ List.mem_cons_of_mem _ (List.mem_cons_self ..)) hsecond]

end Tenure
