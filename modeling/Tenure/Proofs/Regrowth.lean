import Tenure.Proofs.Apart
import Tenure.Proofs.Rewriting
import Tenure.Proofs.Walking

/-!
# Phases that grow back

A repair that cuts phases off a subscription, and has nothing to put in their place, finds the
phases that are still owed.

**Theorem (`cut_phases_regrow`).** They are the phases that it cut. The history must end with a
start or a change and all the phases that the catalog lays out from there, and the catalog must tell
the same of a plan at every date, with distinct names of its phases and no limited phase of no
length.

If all the phases are cut off, they are laid out once more as they were for the start or the change.
If some stay, nothing is known any more of how the last of them was laid out. The phases behind it
are laid out from the date on which it began (`Catalog.LaysOut.phase`), and they are the same
because the rest of a chain is the chain from there on (`phaseChain_of_append`). What is owed is all
of it, as each begins after the last event kept.
-/

namespace Tenure

/-! ## Catalogs and histories -/

/-- A catalog that tells the same of a plan at every date, with phases of distinct names and with
positive durations where these are limited. -/
structure Catalog.IsFixed (catalog : Catalog) : Prop where
  found : ∀ name date date',
    catalog.findPlanByName name date = catalog.findPlanByName name date'
  phaseNames : ∀ name date plan, catalog.findPlanByName name date = .ok plan →
    (plan.phases.map (·.name)).Nodup
  durations : ∀ name date plan, catalog.findPlanByName name date = .ok plan →
    ∀ phase ∈ plan.phases, phase.duration.IsPositive

/-- The visible history ends with a start or a change, and behind it the phases that the catalog
lays out for it and no others. So the subscription is live. -/
structure Subscription.EndsInPhases (sub : Subscription) (catalog : Catalog) (anchors : Anchors)
    (front : List Event) (opening : Event) (phases : List Event) : Prop where
  visible : sub.effectiveEvents = front ++ opening :: phases
  opens : opening.type.startsSubscription = true ∨ opening.type = .change
  laidOut : ∃ t schedule, (Cursor.start.through front).transition? opening = some t ∧
    catalog.alignTransition anchors t = .ok (some schedule) ∧
      phases.map (·.timed) = schedule.upcoming.map (·.entry)

/-! ## The last transition kept -/

namespace Cursor

variable {c : Cursor} {e : Event} {t : Transition}

theorem transition?_phase (target : Target) {name : String} (h : e.payload = .phase name) :
    ∃ t, (Cursor.mk (some target) false).transition? e = some t ∧ t.type = .phase ∧
      t.next = some { target with phase := name } ∧
        (Cursor.mk (some target) false).after e = ⟨t.next, false⟩ := by
  refine ⟨_, by rw [transition?, h]; rfl, ?_, rfl, by rw [after, transition?, h]; rfl⟩
  show e.payload.type = .phase
  rw [h]
  rfl

theorem after_of_opens (hopens : e.type.startsSubscription = true ∨ e.type = .change)
    (h : c.transition? e = some t) : c.after e = ⟨t.next, false⟩ := by
  have hother : t.type ≠ .cancel := fun hcancel => by
    rw [(transition?_eq_some h).1] at hcancel
    simp [hcancel, EventType.startsSubscription] at hopens
  simp [after, h, (admits h).advance_eq, hother]

end Cursor

namespace Catalog

variable {catalog : Catalog} {anchors : Anchors} {t : Transition} {target : Target} {plan : Plan}
  {index : Nat} {chain : Schedule}

theorem alignTransition_of_phase (htype : t.type = .phase) (hnext : t.next = some target)
    (hplan : catalog.findPlanByName target.plan t.effective = .ok plan)
    (hindex : plan.phaseIndex? target.phase = some index)
    (hchain : phaseChain plan index t.effective = .ok chain) :
    catalog.alignTransition anchors t = .ok (some (chain.moveTo t.effective)) := by
  have hrecorded : catalog.alignRecorded anchors t plan target = .ok none := by
    unfold alignRecorded
    rw [htype]
  unfold alignTransition
  simp only [hnext, hplan, hrecorded, liftM, monadLift, MonadLift.monadLift, Except.mapError, bind,
    Except.bind, Option.filter_none, hindex, hchain]
  rfl

/-- From the next phase of a schedule on the rest of it is laid out. -/
theorem alignTransition_of_upcoming (hcat : catalog.IsFixed) {date : Instant} {s : Schedule}
    (hplan : catalog.findPlanByName target.plan date = .ok plan) (hseen : s.SeenAt plan date)
    {p : TimedPhase} {rest : List TimedPhase} (hupcoming : s.upcoming = p :: rest)
    (htype : t.type = .phase) (hdate : t.effective = p.start)
    (hnext : t.next = some { target with phase := p.phase.name }) :
    catalog.alignTransition anchors t = .ok (some ⟨p, rest⟩) := by
  obtain ⟨index, anchor, chain, hchain, rfl⟩ := hseen
  obtain ⟨passed, hpassed⟩ := Schedule.seenFrom_suffix date chain.current chain.upcoming
  have hphases : chain.phases = (passed ++ [(chain.moveTo date).current]) ++ p :: rest := by
    rw [List.append_assoc, List.singleton_append, ← hupcoming]
    exact hpassed.symm
  have hrest := phaseChain_of_append hchain hphases
  have hindex := Plan.phaseIndex?_of_getElem? (hcat.phaseNames _ _ _ hplan)
    (phaseChain_current hrest).1
  have hascending := (phaseChain_follows hrest (hcat.durations _ _ _ hplan)).1.ascending
  have hmoved : Schedule.moveTo p.start ⟨p, rest⟩ = ⟨p, rest⟩ :=
    Schedule.seenFrom_of_lt (List.pairwise_cons.1 hascending).1
  rw [alignTransition_of_phase htype hnext ((hcat.found _ _ _).trans hplan) hindex
    (hdate ▸ hrest), hdate, hmoved]

/-- The last of the events made the transition, and the catalog lays out the schedule for it. -/
structure LaysOut (catalog : Catalog) (anchors : Anchors) (es : List Event) (t : Transition)
    (s : Schedule) : Prop where
  last : (transitionsFrom .start es).getLast? = some t
  date : es.getLast?.map (·.effective) = some t.effective
  reached : Cursor.start.through es = ⟨t.next, false⟩
  aligned : catalog.alignTransition anchors t = .ok (some s)

namespace LaysOut

variable {es : List Event} {e : Event} {s : Schedule}

/-- The last event makes its transition where those before it have led. -/
theorem of_transition? (ht : (Cursor.start.through es).transition? e = some t)
    (hreached : (Cursor.start.through es).after e = ⟨t.next, false⟩)
    (haligned : catalog.alignTransition anchors t = .ok (some s)) :
    catalog.LaysOut anchors (es ++ [e]) t s where
  last := by
    rw [transitionsFrom_append, transitionsFrom, ht]
    exact List.getLast?_concat
  date := by rw [List.getLast?_concat, Option.map_some, (Cursor.transition?_eq_some ht).2.1]
  reached := by rw [Cursor.through_append, Cursor.through_singleton, hreached]
  aligned := haligned

/-- Behind the next phase of the schedule the catalog lays out the rest of it. -/
theorem phase (hcat : catalog.IsFixed) (h : catalog.LaysOut anchors es t s) {p : TimedPhase}
    {rest : List TimedPhase} (hupcoming : s.upcoming = p :: rest) (he : e.timed = p.entry) :
    ∃ u, catalog.LaysOut anchors (es ++ [e]) u ⟨p, rest⟩ := by
  obtain ⟨target, plan, hnext, hplan, hseen⟩ := alignTransition_seenAt h.aligned
  have hreached : Cursor.start.through es = ⟨some target, false⟩ := hnext ▸ h.reached
  have hpayload : e.payload = .phase p.phase.name := congrArg (·.payload) he
  obtain ⟨u, hu, htype, hunext, hafter⟩ := Cursor.transition?_phase target hpayload
  have hdate : u.effective = p.start :=
    (Cursor.transition?_eq_some hu).2.1.trans (congrArg (·.effective) he)
  exact ⟨u, of_transition? (hreached ▸ hu) (hreached ▸ hafter)
    (alignTransition_of_upcoming hcat hplan hseen hupcoming htype hdate hunext)⟩

/-- So it does behind any number of them. -/
theorem phases (hcat : catalog.IsFixed) {stays gone : List Event}
    (h : catalog.LaysOut anchors es t s)
    (hphases : (stays ++ gone).map (·.timed) = s.upcoming.map (·.entry)) :
    ∃ u rest, catalog.LaysOut anchors (es ++ stays) u rest ∧
      gone.map (·.timed) = rest.upcoming.map (·.entry) := by
  induction stays generalizing es t s with
  | nil => exact ⟨t, s, (List.append_nil es).symm ▸ h, hphases⟩
  | cons e stays ih =>
    obtain ⟨p, rest, hupcoming, he, hrest⟩ := List.map_eq_cons_iff.1 hphases.symm
    obtain ⟨u, hu⟩ := h.phase hcat hupcoming he.symm
    rw [List.append_cons]
    exact ih hu hrest.symm

end LaysOut

end Catalog

/-! ## Repairs -/

namespace Rework

variable {cx : ReplayContext} {w : Rework} {t : Transition} {s : Schedule}

/-- All that the catalog lays out behind the events kept is resumed. -/
theorem resumed_of_laysOut (h : cx.catalog.LaysOut (w.anchors cx) w.kept t s)
    (hcalm : Calm w.kept) (htouched : w.isTouched = true) (hre : w.isRecreated = false) :
    w.resumed cx = s.upcoming := by
  obtain ⟨_, _, -, -, hseen⟩ := Catalog.alignTransition_seenAt h.aligned
  have hlast : (transitions w.kept).getLast? = some t := by
    rw [transitions, hcalm.effectiveEvents_eq]
    exact h.last
  rw [resumed, if_neg (by simp [htouched, hre]), lastKept?, h.date, hlast]
  simp only [h.aligned]
  exact List.filter_eq_self.2 fun p hp => decide_eq_true (hseen.ahead p hp)

theorem replayAlone_of_no_proposals {said : List TimedPayload} (h : w.replayAlone cx = .ok said)
    (hnone : w.proposals = []) : said = (w.resumed cx).map (·.entry) := by
  obtain ⟨owed, howed, hsaid⟩ := bind_eq_ok.1 h
  rw [hnone] at hsaid
  rw [← map_timed_owed howed]
  exact (Except.ok.inj hsaid).symm

/-- What is kept and what is cut off is told by what is deleted. -/
theorem Prepared.kept_eq {kept cut : List Event} (h : w.Prepared)
    (hvisible : w.subscription.effectiveEvents = kept ++ cut)
    (hkept : ∀ e ∈ kept, e.id ∉ w.deleted) (hcut : ∀ e ∈ cut, e.id ∈ w.deleted) :
    w.kept = kept := by
  have hfilter {xs ys : List Event} (hxs : ∀ e ∈ xs, e.id ∉ w.deleted)
      (hys : ∀ e ∈ ys, e.id ∈ w.deleted) :
      (xs ++ ys).filter (fun e => e.id ∉ w.deleted) = xs := by
    rw [List.filter_append, List.filter_eq_self.2 fun e he => decide_eq_true (hxs e he),
      List.filter_eq_nil_iff.2 fun e he => by simpa using hys e he, List.append_nil]
  rw [← hfilter h.keptNotDeleted h.cutDeleted, ← h.cut, hvisible, hfilter hkept hcut]

end Rework

namespace Repair

theorem mem_gather_of_find? {subs : List Subscription} {edits : List Edit} {sub : Subscription}
    (hsub : subs.find? (·.id == sub.id) = some sub) (hedit : ∃ e ∈ edits, e.subscription = sub.id) :
    (sub, ⟨sub.id, (edits.filter (·.subscription == sub.id)).flatMap (·.deleted),
      (edits.filter (·.subscription == sub.id)).flatMap (·.proposals)⟩) ∈ gather edits subs := by
  have hsome : edits.filter (·.subscription == sub.id) ≠ [] := fun hnil =>
    filter_edits_eq_nil.1 hnil hedit
  clear hedit
  induction subs generalizing edits with
  | nil => cases hsub
  | cons s ss ih =>
    by_cases hid : s.id = sub.id
    · rw [List.find?_cons_of_pos (by simpa using hid)] at hsub
      cases hsub
      unfold gather
      split
      next hnil => exact (hsome hnil).elim
      next => exact List.mem_cons_self ..
    · rw [List.find?_cons_of_neg (by simpa using hid)] at hsub
      unfold gather
      split
      next => exact ih hsub hsome
      next =>
        have hsame := filter_edits_without edits sub.id s.id
        rw [if_neg (Ne.symm hid)] at hsame
        have hmem := ih hsub (hsame ▸ hsome :
          (edits.filter (·.subscription != s.id)).filter (·.subscription == sub.id) ≠ [])
        rw [hsame] at hmem
        exact List.mem_cons_of_mem _ hmem

/-- The repair deletes of the subscription the events `gone` and not those that stay, and proposes
nothing for it. -/
structure CutsBack (repair : Repair) (sub : Subscription) (stays gone : List Event) : Prop where
  nonempty : gone ≠ []
  deletes : ∀ e ∈ gone, repair.Deletes sub.id e.id
  spares : ∀ e ∈ stays, ¬ repair.Deletes sub.id e.id
  proposes : repair.proposalsFor sub.id = []

/-- On the bench the subscription is cut back just so. -/
theorem CutsBack.exists_work {repair : Repair} {subs : List Subscription} {works : List Rework}
    {sub : Subscription} {stays gone : List Event} (h : repair.CutsBack sub stays gone)
    (hworks : repair.prepareAll subs = .ok works)
    (hsub : subs.find? (·.id == sub.id) = some sub)
    (hvisible : sub.effectiveEvents = stays ++ gone) :
    ∃ w ∈ works, w.subscription = sub ∧ w.kept = stays ∧ w.proposals = [] ∧
      w.isTouched = true ∧ w.isRecreated = false := by
  obtain ⟨e, he⟩ := List.exists_mem_of_ne_nil _ h.nonempty
  obtain ⟨x, hx, hid, -⟩ := h.deletes e he
  obtain ⟨w, hw, hprep⟩ := exists_right_of_forall₂ (prepareAll_eq_ok hworks)
    (mem_gather_of_find? hsub ⟨x, hx, hid⟩)
  obtain ⟨hprepared, rfl, hdeleted, hproposals, -⟩ := Rework.prepare_eq_ok.1 hprep
  have hdeletes (i : EventId) : i ∈ w.deleted ↔ repair.Deletes w.subscription.id i := by
    rw [hdeleted]
    simp [Deletes, and_assoc]
  have hnone : w.proposals = [] :=
    hproposals.trans (congrArg (sortBy Proposal.dateLe) h.proposes)
  refine ⟨w, hw, rfl, ?_, hnone, ?_, ?_⟩
  · exact hprepared.kept_eq hvisible (fun e he hdel => h.spares e he ((hdeletes e.id).1 hdel))
      fun e he => (hdeletes e.id).2 (h.deletes e he)
  · simp [Rework.isTouched, List.ne_nil_of_mem ((hdeletes e.id).2 (h.deletes e he))]
  · rw [Rework.isRecreated, hnone]
    rfl

end Repair

theorem Workbench.planOf_touched (b : Workbench) (repair : Repair) (view : String)
    (context : CallContext) {worked : List Rework} (hids : (worked.map (·.id)).Nodup)
    {w : Rework} (hw : w ∈ worked) (htouched : w.isTouched = true) {sub : Subscription}
    (hsub : b.subscriptions.find? (·.id == sub.id) = some sub) (hid : sub.id = w.id) :
    (∃ timeline, (b.planOf repair view context worked).view.of? sub.id = some timeline ∧
      timeline.existing = w.kept ∧ timeline.new = w.added) ∧
      b.repaired w ∈ (b.planOf repair view context worked).commit.subscriptions := by
  have hview : (b.planOf repair view context worked).view.of? sub.id =
      some (timelineOf worked sub) :=
    TimelineView.of?_eq_of_find? (timelineOf_subscription worked) rfl hsub
  exact ⟨⟨timelineOf worked sub, hview, timelineOf_touched hids hw htouched hid⟩,
    List.mem_map_of_mem (List.mem_filter.2 ⟨hw, htouched⟩)⟩

/-- **Phases that are cut off grow back.** If a repair deletes the last of the phases that a
subscription ends with, and has nothing to propose for it, it puts in just the phases that it
deleted, and what it writes says the same as what was there. -/
theorem cut_phases_regrow {catalog : Catalog} (hcat : catalog.IsFixed) {bundle : Bundle}
    {view : String} {subs : List Subscription} {repair : Repair} {context : CallContext}
    {now : Instant} {ids : Nat → EventId} {works : List Rework} {plan : RepairPlan}
    (hworks : repair.prepareAll subs = .ok works)
    (hplan : planRepair catalog bundle view subs repair context now ids = .ok plan)
    {sub : Subscription} (hsub : subs.find? (·.id == sub.id) = some sub)
    {front : List Event} {opening : Event} {stays gone : List Event}
    (hends : sub.EndsInPhases catalog
      ⟨Workbench.bundleStart ⟨bundle, subs, works⟩, sub.alignStart⟩ front opening (stays ++ gone))
    (hcuts : repair.CutsBack sub (front ++ opening :: stays) gone) :
    (∃ timeline, plan.view.of? sub.id = some timeline ∧
      timeline.existing = front ++ opening :: stays ∧
        timeline.new.map (·.timed) = gone.map (·.timed)) ∧
      ∃ r ∈ plan.commit.subscriptions, r.id = sub.id ∧
        r.events.map (·.timed) = sub.effectiveEvents.map (·.timed) := by
  obtain ⟨works', h⟩ := exists_passes_of_planRepair hplan
  obtain rfl : works = works' := Except.ok.inj (hworks.symm.trans h.prepared)
  rw [h.planRepair_eq catalog context now ids] at hplan
  obtain ⟨worked, hrun, rfl⟩ := map_eq_ok.1 hplan
  have hvisible : sub.effectiveEvents = (front ++ opening :: stays) ++ gone := by
    rw [hends.visible, List.append_assoc, List.cons_append]
  obtain ⟨w, hw, hown, hkept, hnone, htouched, hre⟩ := hcuts.exists_work hworks hsub hvisible
  obtain ⟨w', hw', rfl, halone⟩ := exists_right_of_forall₂ (h.alone_of_run rfl hrun) hw
  obtain ⟨t, s, ht, haligned, hphases⟩ := hends.laidOut
  have hopening := Catalog.LaysOut.of_transition? ht (Cursor.after_of_opens hends.opens ht) haligned
  obtain ⟨u, rest, hlaid, hrest⟩ := hopening.phases hcat hphases
  rw [List.append_assoc, List.singleton_append] at hlaid
  have hnew : w'.added.map (·.timed) = gone.map (·.timed) := by
    have hanchors : w'.bare.anchors (Workbench.replayContext ⟨bundle, subs, works⟩ catalog context
        now ids) = ⟨Workbench.bundleStart ⟨bundle, subs, works⟩, sub.alignStart⟩ := by
      rw [Rework.anchors, Rework.alignStart, hre, hown]
      rfl
    rw [Rework.replayAlone_of_no_proposals halone hnone, hrest]
    have hcalm : Calm w'.bare.kept :=
      (Calm.ofEffective _).sublist (h.work_prepared hw).1.kept_sublist
    exact congrArg _ (Rework.resumed_of_laysOut (hanchors ▸ hkept ▸ hlaid) hcalm htouched hre)
  have hids : (worked.map (·.id)).Nodup := by
    rw [Replay.map_ids_of_bare (Replay.run_bare hrun)]
    exact Repair.prepareAll_nodup hworks
  have hid : sub.id = w'.id := congrArg (·.id) hown.symm
  obtain ⟨⟨timeline, hview, hexisting, hadded⟩, hcommit⟩ :=
    Workbench.planOf_touched ⟨bundle, subs, works⟩ repair view context hids hw' htouched hsub hid
  refine ⟨⟨timeline, hview, hexisting.trans hkept, hadded ▸ hnew⟩, _, hcommit, hid.symm, ?_⟩
  show w'.events.map (·.timed) = _
  rw [Rework.events, List.map_append, hnew, ← List.map_append, hvisible]
  exact congrArg (fun es => (es ++ gone).map (·.timed)) hkept

namespace Sample

theorem faithful_isFixed : faithful.catalog.IsFixed := by
  have hmem : ∀ name date plan, faithful.catalog.findPlanByName name date = .ok plan →
      plan ∈ musket 60 :: Catalog.Sample.plans := by
    intro name date plan h
    simp only [faithful, dealer, engine, Catalog.Sample.catalog] at h
    split at h
    · cases h
      exact List.mem_cons_self ..
    · split at h
      next hfound =>
        cases h
        exact List.mem_cons_of_mem _ (List.mem_of_find?_eq_some hfound)
      · cases h
  have hnames : ∀ plan ∈ musket 60 :: Catalog.Sample.plans,
      (plan.phases.map (·.name)).Nodup := by
    decide +kernel
  have hdurations : ∀ plan ∈ musket 60 :: Catalog.Sample.plans,
      ∀ phase ∈ plan.phases, phase.duration.IsPositive := by
    decide +kernel
  exact ⟨fun _ _ _ => rfl, fun name date plan h => hnames plan (hmem name date plan h),
    fun name date plan h => hdurations plan (hmem name date plan h)⟩

/-- A subscription that was changed on day 10 to a plan with two more phases ahead. -/
def outfitted : Subscription where
  id := ⟨1⟩
  bundle := ⟨1⟩
  category := .base
  start := day 0
  bundleStart := day 0
  alignStart := day 0
  chargedThrough := none
  version := 1
  events := [event 1 0 (.create ⟨"shotgun-monthly", "shotgun-monthly-trial", "DEFAULT"⟩),
    event 2 10 (.change ⟨"musket-monthly", "musket-monthly-trial", "DEFAULT"⟩),
    event 3 30 (.phase "musket-monthly-discount"), event 4 90 (.phase "musket-monthly-evergreen")]

/-- The repair that deletes the last phase. -/
def trim : Repair := ⟨"4-0", [⟨⟨1⟩, [⟨4⟩], []⟩]⟩

def trimmed : Workbench :=
  ⟨⟨⟨1⟩, "key", ⟨1⟩, day 0, day 0⟩, [outfitted],
    (trim.prepareAll [outfitted]).toOption.getD []⟩

theorem outfitted_ends : outfitted.EndsInPhases faithful.catalog
    ⟨trimmed.bundleStart, outfitted.alignStart⟩
    [event 1 0 (.create ⟨"shotgun-monthly", "shotgun-monthly-trial", "DEFAULT"⟩)]
    (event 2 10 (.change ⟨"musket-monthly", "musket-monthly-trial", "DEFAULT"⟩))
    ([event 3 30 (.phase "musket-monthly-discount")] ++
      [event 4 90 (.phase "musket-monthly-evergreen")]) where
  visible := by decide +kernel
  opens := .inr rfl
  laidOut := ⟨_, musketChain, rfl, rfl, by decide +kernel⟩

end Sample

/-- The discount stays, and the phase behind it is laid out from there. -/
theorem cut_phases_regrow_sample : ∃ plan,
    planRepair Sample.faithful.catalog Sample.trimmed.bundle "4-0" [Sample.outfitted] Sample.trim
      Sample.caller (Sample.day 95) Sample.issued = .ok plan ∧
    ∃ timeline, plan.view.of? ⟨1⟩ = some timeline ∧
      timeline.existing.map (·.id) = [⟨1⟩, ⟨2⟩, ⟨3⟩] ∧
      timeline.new.map (·.timed) = [⟨Sample.day 90, .phase "musket-monthly-evergreen"⟩] := by
  have hok : (planRepair Sample.faithful.catalog Sample.trimmed.bundle "4-0" [Sample.outfitted]
      Sample.trim Sample.caller (Sample.day 95) Sample.issued).toOption.isSome = true := by
    decide +kernel
  obtain ⟨plan, hplan⟩ := exists_eq_ok hok
  have hworks : Sample.trim.prepareAll [Sample.outfitted] = .ok Sample.trimmed.works :=
    eq_ok_getD (by decide +kernel) []
  obtain ⟨⟨timeline, hview, hexisting, hnew⟩, -⟩ := cut_phases_regrow Sample.faithful_isFixed hworks
    hplan (by rfl) Sample.outfitted_ends
    ⟨by simp, by decide, by decide, rfl⟩
  exact ⟨plan, hplan, timeline, hview, hexisting ▸ rfl, hnew⟩

end Tenure
