import Tenure.Proofs.Finishing
import Tenure.Proofs.Imports

/-!
# Subscriptions are not stranded

On a steady catalog a subscription that is not cancelled ends on a phase that has no successor.
Nothing that is written puts a subscription on a phase without the phases behind it, so it cannot
stay on a trial for ever.

Four kinds of steps can undo this (`Step.KeepsCourse`). What they have in common is that the phases
ahead were withdrawn, or never written, because something else stood in their place: a cancellation
that is then taken back or left out of a copy, an event that is kept behind the phases that are cut
off, a change at the very date at which a copy opens, or an end in front of the beginning.
-/

namespace Tenure

/-! ## Steps that keep the course -/

namespace Step

/-- The step takes back cancellations of the subscription. -/
def Resumes (st : Step) (s : Store) (sub : Subscription) : Prop :=
  ∃ i bundle events, st.call = .uncancel i ∧
    st.engine.uncancelEvents st.context st.now i s = .ok (bundle, events) ∧
      ∃ e ∈ events, s.subscription? e.subscription = some sub

/-- The step carries the subscription over to another account, where it opens at `start` on
`target`. -/
def Carries (st : Step) (s : Store) (sub : Subscription) (start : Instant) (target : Target) :
    Prop :=
  ∃ request source, st.call = .transfer request ∧
    s.bundleByKey? request.source request.key = some source ∧
      sub ∈ request.carried (s.subscriptionsOf source.id) ∧
        sub.opening? request.date = some (start, target)

/-- The step is a repair that works on the subscription. -/
def WorksOn (st : Step) (s : Store) (w : Rework) (cx : ReplayContext) : Prop :=
  ∃ i repair bundle works, st.call = .repair i repair false ∧ s.bundle? i = some bundle ∧
    repair.prepareAll (s.subscriptionsOf i) = .ok works ∧ w ∈ works ∧
      cx = Workbench.replayContext ⟨bundle, s.subscriptionsOf i, works⟩ st.engine.catalog st.context
        st.now (st.engine.supply s).event

/-- The step imports the subscription. -/
def Imports (st : Step) (m : SubscriptionMigration) : Prop :=
  ∃ migration, st.call = .migrate migration ∧ ∃ b ∈ migration.bundles, m ∈ b.subscriptions

/-- The step leaves no subscription without the phases that it is going to need. -/
structure KeepsCourse (st : Step) (s : Store) : Prop where
  /-- A cancellation is taken back where the phases behind it are still there. -/
  resumes : ∀ sub, st.Resumes s sub → sub.IsOnCourse st.engine.catalog
  /-- So it is where a subscription is carried over, and it opens on what it holds by then. -/
  carries : ∀ sub start target, st.Carries s sub start target →
    sub.heldAt? start = some target ∧ sub.IsOnCourse st.engine.catalog
  /-- What is cut back keeps nothing that reaches past its last phase. -/
  worksOn : ∀ w cx, st.WorksOn s w cx → ¬ w.Overstays cx
  /-- What is imported ends behind its beginning. -/
  imports : ∀ m, st.Imports m → m.EndsInOrder

theorem KeepsCourse.of_other {st : Step} {s : Store} (huncancel : ∀ i, st.call ≠ .uncancel i)
    (htransfer : ∀ request, st.call ≠ .transfer request)
    (hrepair : ∀ i repair, st.call ≠ .repair i repair false)
    (hmigrate : ∀ migration, st.call ≠ .migrate migration) : st.KeepsCourse s where
  resumes := fun _ ⟨i, _, _, hcall, _⟩ => (huncancel i hcall).elim
  carries := fun _ _ _ ⟨request, _, hcall, _⟩ => (htransfer request hcall).elim
  worksOn := fun _ _ ⟨i, repair, _, _, hcall, _⟩ => (hrepair i repair hcall).elim
  imports := fun _ ⟨migration, hcall, _⟩ => (hmigrate migration hcall).elim

end Step

/-! ## One step -/

/-- All subscriptions of the store complete. -/
def Store.AllComplete (s : Store) (catalog : Catalog) : Prop :=
  ∀ r ∈ s.records, catalog.Completes (s.shown r)

section Writes

variable {s t : Store} {e : Engine} {context : CallContext} {now : Instant} {x : SubscriptionRecord}

theorem completes_of_resumed {i : SubscriptionId} {bundle : BundleId} {events : List Event}
    (hs : s.Tidy) (ht : t.Tidy) (hkeeps : Step.KeepsCourse ⟨e, context, now, .uncancel i⟩ s)
    (hplan : e.uncancelEvents context now i s = .ok (bundle, events)) (hx : x ∈ s.records)
    {n : Nat} {fs : List Event} (hshown : t.shown x = s.shown x ++ fs)
    (hlaid : Laid n fs ((events.filter (·.subscription == x.id)).map (·, x.version)))
    (hbefore : e.catalog.Completes (s.shown x)) : e.catalog.Completes (t.shown x) := by
  cases hown : events.filter (·.subscription == x.id) with
  | nil =>
    rw [hown] at hlaid
    cases hlaid
    rwa [hshown, List.append_nil]
  | cons f rest =>
    obtain ⟨hf, hid⟩ := List.mem_filter.1 (hown ▸ List.mem_cons_self : f ∈ events.filter _)
    have hid : f.subscription = x.id := by simpa using hid
    have hsub : s.subscription? f.subscription = some (s.visible x) :=
      hid ▸ Store.subscription?_of_mem hs hx
    refine Store.completes_of_uncancels hs ht hshown hlaid (fun g hg => ?_)
      (hkeeps.resumes _ ⟨i, bundle, events, rfl, hplan, f, hf, hsub⟩)
    exact Engine.uncancelEvents_type hplan g (List.mem_filter.1 hg).1

theorem completes_of_repaired {i : BundleId} {repair : Repair} {plan : RepairPlan} (hs : s.Sound)
    (hcat : e.catalog.IsSteady)
    (hkeeps : Step.KeepsCourse ⟨e, context, now, .repair i repair false⟩ s)
    (hleap : Step.OffLeaps ⟨e, context, now, .repair i repair false⟩)
    (hplan : e.planStored context now i repair s = .ok plan)
    (hrows : Rows s t (Store.reviseAll plan.commit.subscriptions) []
      (s.revised plan.commit.subscriptions))
    (hall : s.AllComplete e.catalog) : t.AllComplete e.catalog := by
  obtain ⟨bundle, benched, works, hbundle, hp⟩ := Engine.planStored_eq_ok hplan
  have hload := hs.loaded i (e.supply_fresh s).events
  obtain ⟨r, rfl, hsweep⟩ := hp.sweep hload
  have hdates := hp.roundsDown hs.tidy (List.mem_of_find?_eq_some hbundle) rfl hleap.proposals
  intro x hx
  rcases hp.record_cases hs (e.supply_fresh s).events hsweep hrows hx with
    ⟨w, hw, htouched, q, hq, hvisible, rfl, -⟩ | ⟨hx, hshown, -⟩
  · have hid : q.id = w.id := congrArg (·.id) hvisible
    have hsub := hp.repaired_mem hw htouched
    rw [← Store.reviseAll_of_mem (hp.commit_ids hload) hsub hid]
    refine hp.completes_revised hs (e.supply_fresh s).events hsweep hrows hdates hcat
      (fun w hw => ?_) hw htouched hq hid
    exact hkeeps.worksOn w _ ⟨i, repair, bundle, benched, rfl, hbundle, hp.prepared, hw, rfl⟩
  · rw [hshown]
    exact hall x hx

theorem completes_of_carried {request : TransferRequest} {source : Bundle} {plan : TransferPlan}
    (hs : s.Tidy) (hroot : ∀ r ∈ s.records, s.IsRooted r ∨ s.IsRootless r)
    (hkeeps : Step.KeepsCourse ⟨e, context, now, .transfer request⟩ s)
    (hleap : Step.OffLeaps ⟨e, context, now, .transfer request⟩)
    (hfound : s.bundleByKey? request.source request.key = some source)
    (hplan : planTransfer source (s.subscriptionsOf source.id) request context now (e.supply s) =
      .ok plan)
    (hrows : Rows s t id (Store.scratchRecords plan.image.subscriptions)
      (Store.scratchEvents plan.image.subscriptions ++ s.atVersions plan.cancels))
    (hall : s.AllComplete e.catalog) : t.AllComplete e.catalog := by
  obtain ⟨base, -, hsubs, -⟩ := planTransfer_eq_ok hplan
  have hown : ∀ sub ∈ plan.image.subscriptions, ∀ f ∈ sub.events, f.subscription = sub.id := by
    rw [hsubs]
    exact transferAll_own
  intro x hx
  rcases hrows.record_cases hs hown (Store.known_of_planTransfer hplan) hx with
    ⟨moved, hmoved, -, -, hlaid⟩ | ⟨hx, fs, hshown, hlaid⟩
  · rw [hsubs] at hmoved
    obtain ⟨sub, hsub, supply, hmoved⟩ := mem_transferAll hmoved
    obtain ⟨r, hr, -, rfl⟩ := Store.mem_subscriptionsOf.1 (List.mem_filter.1 hsub).1
    refine Subscription.transferred?_completes hmoved (Store.visible_ids hs r) (d := r.start)
      (fun d hd => ?_) (fun start target hopens => ?_) (Subscription.transferred?_dated
        (hs.visible_dated hr) (Instant.roundsDown_of_not_leap (hleap _ (by simp [Call.dates])))
        hmoved) (hrows.tidy hs) hlaid
    · rw [(s.starts_visible r).mem_iff] at hd
      rcases hroot r hr with hrooted | hrootless
      · rw [hrooted] at hd
        exact List.mem_singleton.1 hd
      · rw [hrootless] at hd
        cases hd
    · exact hkeeps.carries _ start target ⟨request, source, rfl, hfound, hsub, hopens⟩
  · exact Store.completes_of_cancels (hrows.tidy hs) hshown hlaid
      (fun f hf => (cancels_of_planTransfer hplan (List.mem_filter.1 hf).1).1) (hall x hx)

theorem Wrote.completes {st : Step} (h : Wrote s t st) (hcat : st.engine.catalog.IsSteady)
    (hs : s.Sound) (hroot : ∀ r ∈ s.records, s.IsRooted r ∨ s.IsRootless r)
    (hkeeps : st.KeepsCourse s) (hleap : st.OffLeaps) (hall : s.AllComplete st.engine.catalog) :
    t.AllComplete st.engine.catalog := by
  intro x hx
  cases h with
  | createBundle rows =>
    have rows : Rows s t id [] (s.atVersions []) := rows
    obtain ⟨hx, fs, hshown, hlaid⟩ := rows.appended_cases hs.tidy hx
    cases hlaid
    rw [hshown, List.append_nil]
    exact hall x hx
  | createSubscription planned rows =>
    rcases rows.scratch_cases hs.tidy (Engine.newSubscription_scratch planned).own hx with
      ⟨sub, hsub, hlaid⟩ | ⟨hx, hshown⟩
    · rw [List.mem_singleton.1 hsub] at hlaid
      exact Engine.newSubscription_completes hcat hs.tidy hleap.asked planned (rows.tidy hs.tidy)
        hlaid
    · exact hshown ▸ hall x hx
  | changePlan planned rows =>
    obtain ⟨hx, fs, hshown, hlaid⟩ := rows.appended_cases hs.tidy hx
    exact Engine.changeEvents_completes hcat hs.tidy (hroot x hx) hx hleap.asked planned
      (rows.tidy hs.tidy) hshown hlaid (hall x hx)
  | cancel planned rows =>
    obtain ⟨hx, fs, hshown, hlaid⟩ := rows.appended_cases hs.tidy hx
    exact Store.completes_of_cancels (rows.tidy hs.tidy) hshown hlaid
      (fun f hf => Engine.cancelEvents_type planned f (List.mem_filter.1 hf).1) (hall x hx)
  | uncancel planned rows =>
    obtain ⟨hx, fs, hshown, hlaid⟩ := rows.appended_cases hs.tidy hx
    exact completes_of_resumed hs.tidy (rows.tidy hs.tidy) hkeeps planned hx hshown hlaid
      (hall x hx)
  | setChargedThrough rows paid =>
    rw [rows.records, List.append_nil] at hx
    obtain ⟨q, hq, rfl⟩ := List.mem_map.1 hx
    obtain ⟨date, hpaid⟩ := paid q
    have hevents : t.events = s.events := by simpa [filing] using rows.events
    rw [hpaid, Store.shown, hevents]
    exact hall q hq
  | repair planned rows _ => exact completes_of_repaired hs hcat hkeeps hleap planned rows hall x hx
  | @migrate _ _ _ migration _ planned rows =>
    obtain ⟨⟨hi, hscratch⟩, hmem⟩ := ImportContext.planBundles_scratch
      (Engine.supply_fresh _ _).bundles.injective (Engine.supply_fresh _ _).events.injective
      (planMigration_eq_ok planned)
    rcases rows.scratch_cases hs.tidy hscratch.own hx with ⟨sub, hsub, hlaid⟩ | ⟨hx, hshown⟩
    · obtain ⟨bundle, key, bundleStart, supply, b, hb, m, hm, hplan⟩ := hmem sub hsub
      exact ImportContext.planSubscription_completes hcat hplan
        (hkeeps.imports m ⟨migration, rfl, b, hb, hm⟩) (hleap.cases hb hm) (rows.tidy hs.tidy) hlaid
    · exact hshown ▸ hall x hx
  | transfer found planned rows =>
    exact completes_of_carried hs.tidy hroot hkeeps hleap found planned rows hall x hx

end Writes

/-! ## The sample catalog is steady -/

namespace Catalog.Sample

variable {policy : ActionPolicy} {plan : Plan}

theorem has_iff_mem : (catalog policy).Has plan ↔ plan ∈ plans := by
  have hfind : plans.find? (·.name == plan.name) = some plan ↔ plan ∈ plans :=
    ⟨List.mem_of_find?_eq_some, find?_of_nodup (by decide +kernel)⟩
  rw [← hfind]
  simp only [Has, catalog]
  cases plans.find? (·.name == plan.name) with
  | none => exact ⟨fun h => (by cases h .last), nofun⟩
  | some found =>
    constructor
    · intro h
      cases h .last
      rfl
    · intro h _
      cases h
      rfl

theorem isSteady (policy : ActionPolicy) : (catalog policy).IsSteady where
  found := by
    intro spec date plan h
    rw [has_iff_mem]
    simp only [catalog] at h
    split at h
    next hfound =>
      cases h
      exact List.mem_of_find?_eq_some hfound
    · cases h
  named := by
    intro name date plan h
    rw [has_iff_mem]
    simp only [catalog] at h
    split at h
    next hfound =>
      cases h
      exact ⟨by simpa using List.find?_some hfound, List.mem_of_find?_eq_some hfound⟩
    · cases h
  phaseNames := by
    intro plan h
    have hall : ∀ plan ∈ plans, (plan.phases.map (·.name)).Nodup := by decide +kernel
    exact hall plan (has_iff_mem.1 h)
  durations := by
    intro plan h
    have hall : ∀ plan ∈ plans, ∀ phase ∈ plan.phases, phase.duration.IsPositive := by
      decide +kernel
    exact hall plan (has_iff_mem.1 h)

theorem isFinal_iff {t : Target} : (catalog policy).IsFinal t ↔
    ∃ plan ∈ plans, plan.name = t.plan ∧ plan.EndsOn t.phase := by
  simp only [IsFinal, has_iff_mem]

end Catalog.Sample

namespace Sample

/-- A trial that is going to be cancelled on day 20, which is taken back on day 2. -/
def spared : List Step :=
  trial ++ [⟨engine, { caller with requested := some (day 20) }, day 1, .cancel ⟨1⟩⟩,
    step 2 (.uncancel ⟨1⟩)]

theorem run_spared : Run (fun s st => st.engine.catalog = Catalog.Sample.catalog .immediate ∧
    st.KeepsCourse s ∧ st.OffLeaps) {} (after spared) := by
  have hrun : Run (fun s st => st.engine.catalog = Catalog.Sample.catalog .immediate ∧
      st.KeepsCourse s ∧ st.OffLeaps) {} (after (spared.take 3)) := by
    refine run_after (List.forall_mem_cons.2 ⟨fun s => ⟨rfl, .of_other ?_ ?_ ?_ ?_, by decide⟩,
      List.forall_mem_cons.2 ⟨fun s => ⟨rfl, .of_other ?_ ?_ ?_ ?_, by decide⟩,
        List.forall_mem_singleton.2 fun s => ⟨rfl, .of_other ?_ ?_ ?_ ?_, by decide⟩⟩⟩) <;>
      simp [step]
  have htidy : (after (spared.take 3)).Tidy := (Store.Reachable.sound (reachable_after _)).tidy
  have hcourse : (after (spared.take 3)).records.map
      (fun r => ((after (spared.take 3)).visible r).course) =
      [some ⟨"pistol-monthly", "pistol-monthly-evergreen", "DEFAULT"⟩] := by decide +kernel
  have hkeeps : (step 2 (.uncancel ⟨1⟩)).KeepsCourse (after (spared.take 3)) := by
    constructor
    · rintro sub ⟨_, _, _, _, _, e, _, hsub⟩ target htarget
      obtain ⟨r, hr, -, rfl⟩ := (Store.subscription?_eq_some htidy).1 hsub
      have hmem := List.mem_map_of_mem (f := fun r =>
        ((after (spared.take 3)).visible r).course) hr
      rw [hcourse, List.mem_singleton, htarget] at hmem
      cases hmem
      exact Catalog.Sample.isFinal_iff.2 (by decide +kernel)
    · rintro _ _ _ ⟨_, _, hcall, _⟩
      cases hcall
    · rintro _ _ ⟨_, _, _, _, hcall, _⟩
      cases hcall
    · rintro _ ⟨_, hcall, _⟩
      cases hcall
  exact .step _ hrun ⟨rfl, hkeeps, by decide⟩

end Sample

/-! ## Runs -/

theorem Run.allComplete {catalog : Catalog} (hcat : catalog.IsSteady) {s : Store}
    (h : Run (fun s st => st.engine.catalog = catalog ∧ st.KeepsCourse s ∧ st.OffLeaps) {} s) :
    s.AllComplete catalog := by
  induction h with
  | refl => simp [Store.AllComplete]
  | @step t st hrun hallowed ih =>
    obtain ⟨rfl, hkeeps, hleap⟩ := hallowed
    have hreachable : t.Reachable := hrun.mono fun _ _ _ => trivial
    rcases st.wrote hreachable.sound with hsame | hwrote
    · rw [hsame]
      exact ih
    · exact hwrote.completes hcat hreachable.sound (Store.Reachable.rooted hreachable) hkeeps
        hleap ih

/-- **No subscription is stranded.** On a steady catalog, and after any steps that keep the course
and ask for nothing in a leap second, a subscription that is not cancelled ends on a phase of its
plan that has no successor. -/
theorem never_stranded {catalog : Catalog} (hcat : catalog.IsSteady) {s : Store}
    (h : Run (fun s st => st.engine.catalog = catalog ∧ st.KeepsCourse s ∧ st.OffLeaps) {} s)
    {i : SubscriptionId} {sub : Subscription} (hsub : s.subscription? i = some sub) {st : Standing}
    (hst : finalStanding sub.events sub.category = some st) (hlive : st.isCancelled = false) :
    ∃ target, st.target? = some target ∧ catalog.IsFinal target := by
  have hreachable : s.Reachable := h.mono fun _ _ _ => trivial
  obtain ⟨r, hr, -, rfl⟩ := (Store.subscription?_eq_some hreachable.sound.tidy).1 hsub
  have hcompletes : catalog.Completes (s.visible r).events :=
    (h.allComplete hcat r hr).congr (by
      rw [Store.effectiveEvents_visible hreachable.sound.tidy])
  exact hcompletes.isFinal hst hlive

/-- The subscription goes on after the cancellation was taken back. -/
theorem never_stranded_sample :
    ∃ sub st target, (Sample.after Sample.spared).subscription? ⟨1⟩ = some sub ∧
      finalStanding sub.events sub.category = some st ∧ st.target? = some target ∧
        (Catalog.Sample.catalog .immediate).IsFinal target := by
  have hread : ((Sample.after Sample.spared).subscription? ⟨1⟩).bind (fun sub =>
      (finalStanding sub.events sub.category).map (·.isCancelled)) = some false := by
    decide +kernel
  obtain ⟨sub, hsub, hread⟩ := Option.bind_eq_some_iff.1 hread
  obtain ⟨st, hst, hlive⟩ := Option.map_eq_some_iff.1 hread
  obtain ⟨target, htarget, hfinal⟩ :=
    never_stranded (Catalog.Sample.isSteady .immediate) Sample.run_spared hsub hst hlive
  exact ⟨sub, st, target, hsub, hst, htarget, hfinal⟩

/-! ## What strands a subscription -/

/-- The subscription is not cancelled, and ends on a phase that has a successor. -/
def Store.Strands (s : Store) (catalog : Catalog) (i : SubscriptionId) : Prop :=
  ∃ sub st target, s.subscription? i = some sub ∧
    finalStanding sub.events sub.category = some st ∧ st.isCancelled = false ∧
      st.target? = some target ∧ ¬ catalog.IsFinal target

namespace Sample

/-- The cancellation that cut the trial off is taken back. -/
def resumed : List Step :=
  trial ++ [step 1 (.repair ⟨1⟩ cutTrial false), step 2 (.uncancel ⟨1⟩)]

/-- The bundle is transferred before the cancellation that cut the trial off. -/
def copied : List Step :=
  trial ++ [step 1 (.repair ⟨1⟩ cutTrial false),
    step 2 (.transfer ⟨⟨1⟩, ⟨2⟩, "key", day 2, false, true⟩)]

/-- An import of one case, a trial that begins on day 10 and is charged through day 50. -/
def imported (finish : Instant) : Step :=
  step 0 (.migrate ⟨⟨1⟩, [⟨"key", [⟨.base,
    [⟨"pistol-monthly", .trial, "DEFAULT", day 10, some finish⟩], some (day 50)⟩]⟩]⟩)

/-- A repair takes an imported end away, and the marker of billing stays behind the trial. -/
def cutBack : List Step :=
  [imported (day 60), step 1 (.repair ⟨1⟩ ⟨"3-0", [⟨⟨1⟩, [⟨2⟩], []⟩]⟩ false)]

/-- What is imported ends before it begins. -/
def endedBefore : List Step := [imported (day 5)]

/-- The bundle is transferred before its plan begins, which was changed for that very date. -/
def movedEarly : List Step :=
  [step 0 (.createBundle ⟨1⟩ "key"),
    ⟨engine, { caller with requested := some (day 10) }, day 1,
      .createSubscription ⟨1⟩ ⟨"pistol", .monthly, "DEFAULT"⟩⟩,
    ⟨engine, { caller with requested := some (day 10) }, day 2,
      .changePlan ⟨1⟩ ⟨"assault-rifle", .monthly, "DEFAULT"⟩⟩,
    step 5 (.transfer ⟨⟨1⟩, ⟨2⟩, "key", day 5, false, true⟩)]

/-- Runs that do not keep the course, with the subscription that they leave on its trial. -/
def astray : List (List Step × SubscriptionId) :=
  [(resumed, ⟨1⟩), (copied, ⟨2⟩), (cutBack, ⟨1⟩), (endedBefore, ⟨1⟩), (movedEarly, ⟨2⟩)]

theorem strands_of_read {steps : List Step} {i : SubscriptionId}
    (h : ((after steps).subscription? i).bind (fun sub =>
      (finalStanding sub.events sub.category).map fun st => (st.isCancelled, st.target?)) =
        some (false, some ⟨"pistol-monthly", "pistol-monthly-trial", "DEFAULT"⟩)) :
    (after steps).Strands (Catalog.Sample.catalog .immediate) i := by
  obtain ⟨sub, hsub, h⟩ := Option.bind_eq_some_iff.1 h
  obtain ⟨st, hst, h⟩ := Option.map_eq_some_iff.1 h
  obtain ⟨hlive, htarget⟩ := Prod.mk.inj h
  refine ⟨sub, st, _, hsub, hst, hlive, htarget, fun hfinal => ?_⟩
  have hnone : ¬ ∃ plan ∈ Catalog.Sample.plans, plan.name = "pistol-monthly" ∧
      plan.EndsOn "pistol-monthly-trial" := by decide +kernel
  exact hnone (Catalog.Sample.isFinal_iff.1 hfinal)

/-- On the sample catalog, which is steady, each kind of step that does not keep the course leaves a
subscription on its trial. -/
theorem astray_strands : (Catalog.Sample.catalog .immediate).IsSteady ∧ ∀ p ∈ astray,
    Run (fun _ st => st.engine.catalog = Catalog.Sample.catalog .immediate) {} (after p.1) ∧
      (after p.1).Strands (Catalog.Sample.catalog .immediate) p.2 := by
  refine ⟨Catalog.Sample.isSteady .immediate, ?_⟩
  simp only [astray, List.forall_mem_cons, List.not_mem_nil, false_implies, implies_true, and_true]
  refine ⟨?_, ?_, ?_, ?_, ?_⟩
  · exact ⟨run_after (by simp [resumed, trial, step, engine]),
      strands_of_read (by decide +kernel)⟩
  · exact ⟨run_after (by simp [copied, trial, step, engine]),
      strands_of_read (by decide +kernel)⟩
  · exact ⟨run_after (by simp [cutBack, imported, step, engine]),
      strands_of_read (by decide +kernel)⟩
  · exact ⟨run_after (by simp [endedBefore, imported, step, engine]),
      strands_of_read (by decide +kernel)⟩
  · exact ⟨run_after (by simp [movedEarly, step, engine]),
      strands_of_read (by decide +kernel)⟩

end Sample

end Tenure
