import Tenure.Proofs.Phases
import Tenure.Proofs.Shown
import Tenure.Proofs.Standing

/-!
# The dates that are written

Every event that is written is dated by the caller, or it enters a phase. Phases are laid end to end
from dates that are stored or from dates of the caller, so what periods keep (`Duration.Keeps`) and
what holds of stored dates holds of all that is written if it holds of the dates that are asked for.
A repair carries it through its sweep (`Planned.dated`).

Stored dates round down, since they are whole milliseconds. So if nothing is asked for in a leap
second, all dates that are written round down (`Planned.roundsDown`).
-/

namespace Tenure

/-- Something holds of all dates of the history that is kept, and of the dates that the phases of
the subscription are laid out from. -/
structure Rework.Dated (w : Rework) (P : Instant → Prop) : Prop where
  alignStart : P w.alignStart
  events : ∀ e ∈ w.events, P e.effective

/-- Something holds of all dates that a replay still has to do with. -/
structure Replay.Dated (r : Replay) (P : Instant → Prop) (ops : List Operation) : Prop where
  works : ∀ w ∈ r.works, w.Dated P
  prospects : ∀ p ∈ r.prospects, P p.date
  proposals : ∀ op ∈ ops, P op.proposal.effective

section Keeps

variable {P : Instant → Prop} (hP : Duration.Keeps P)

theorem Prospect.ofSchedule_dated {i : SubscriptionId} {schedule : Schedule} {date : Instant}
    (h : ∀ p ∈ schedule.phases, P p.start) : ∀ q ∈ ofSchedule i schedule date, P q.date := by
  intro q hq
  obtain ⟨p, hp, rfl⟩ := List.mem_map.1 hq
  exact h p (.tail _ (List.mem_filter.1 hp).1)

namespace Rework

variable {cx : ReplayContext} {w : Rework}

theorem Dated.adding (h : w.Dated P) {e : Event} (he : P e.effective) : (w.adding e).Dated P where
  alignStart := h.alignStart
  events := by
    rw [adding_events]
    exact List.forall_mem_append.2 ⟨h.events, List.forall_mem_singleton.2 he⟩

include hP

theorem Carried.dated (hbundle : P cx.bundleStart) (hw : w.Dated P) {p : Proposal}
    (hp : P p.effective) {payload : Payload} {prospects : List Prospect}
    (h : w.Carried cx p payload prospects) : ∀ q ∈ prospects, P q.date := by
  cases h with
  | creation _ _ align =>
    exact Prospect.ofSchedule_dated
      (Catalog.alignOnCreate_keeps hP align hbundle hw.alignStart hp)
  | change _ _ _ align =>
    exact Prospect.ofSchedule_dated
      (Catalog.alignOnChange_keeps hP align hbundle hw.alignStart hp)
  | cancel => simp

theorem owedPhases_dated (hbundle : P cx.bundleStart) (hw : w.Dated P) {owed : List Prospect}
    (h : w.owedPhases cx = .ok owed) : ∀ p ∈ owed, P p.date := by
  unfold owedPhases at h
  split at h
  · cases h
    simp
  · split at h
    next date t _ ht =>
      split at h
      · cases h
        simp
      · obtain ⟨schedule, halign, rfl⟩ := map_eq_ok.1 h
        cases schedule with
        | none => simp
        | some schedule =>
          obtain ⟨e, he, hdate⟩ := exists_event_of_transition (List.mem_of_getLast? ht)
          have hkept : e ∈ w.kept := (mem_effectiveEvents.1 he).1
          exact Prospect.ofSchedule_dated (Catalog.alignTransition_keeps hP halign hbundle
            hw.alignStart (hdate ▸ hw.events e (List.mem_append_left _ hkept)))
    · cases h
      simp

end Rework

/-! ## The sweep -/

namespace Replay.Dated

variable {cx : ReplayContext} {r r' : Replay} {ops : List Operation}

theorem record (h : r.Dated P ops) {i : SubscriptionId} {date : Instant} {payload : Payload}
    (hdate : P date) : (r.record cx i date payload).Dated P ops where
  works := by
    intro w' hw'
    rcases mem_record_works.1 hw' with ⟨hw', -⟩ | ⟨w, hw, -, rfl⟩
    · exact h.works w' hw'
    · exact (h.works w hw).adding hdate
  prospects := h.prospects
  proposals := h.proposals

theorem enter (h : r.Dated P ops) {p : Prospect} {ps : List Prospect}
    (hfront : r.prospects = p :: ps) :
    (Replay.enter cx { r with prospects := ps } p).Dated P ops := by
  obtain ⟨hp, hps⟩ := List.forall_mem_cons.1 (hfront ▸ h.prospects)
  have hrest : Dated { r with prospects := ps } P ops := ⟨h.works, hps, h.proposals⟩
  unfold Replay.enter
  split
  · exact hrest.record hp
  · exact hrest

include hP

theorem perform (hbundle : P cx.bundleStart) {op : Operation} (h : r.Dated P (op :: ops))
    {w : Rework} (hw : r.work? op.subscription = some w) {payload : Payload}
    {prospects : List Prospect} (hout : w.carryOut cx op.proposal = .ok (payload, prospects)) :
    ((r.record cx op.subscription op.proposal.effective payload).replaceProspects op.subscription
      prospects).Dated P ops := by
  obtain ⟨hop, hops⟩ := List.forall_mem_cons.1 h.proposals
  have hrecord : (r.record cx op.subscription op.proposal.effective payload).Dated P (op :: ops) :=
    h.record hop
  have hnew := (Rework.carried_of_eq_ok hout).dated hP hbundle
    (h.works w (Sweep.work?_mem hw).1) hop
  refine ⟨hrecord.works, fun p hp => ?_, hops⟩
  rcases List.mem_append.1 (mem_sortBy.1 hp) with hp | hp
  · exact h.prospects p (List.mem_filter.1 hp).1
  · exact hnew p hp

theorem performAll (hbundle : P cx.bundleStart) (h : r.Dated P ops)
    (hr : r.performAll cx ops = .ok r') : r'.Dated P [] :=
  (performAll_induct (P := fun r ops => r.Dated P ops)
    (fun _ _ _ _ hfront _ h => h.enter hfront)
    (fun _ _ _ _ _ _ _ hw hout h => h.perform hP hbundle hw hout)
    (fun _ _ _ _ h => ⟨h.works, h.prospects, (List.forall_mem_cons.1 h.proposals).2⟩) hr h).1

end Replay.Dated

/-! ## Repairs -/

/-- Something holds of all dates of a subscription that is loaded. -/
structure Subscription.Dated (sub : Subscription) (P : Instant → Prop) : Prop where
  start : P sub.start
  bundleStart : P sub.bundleStart
  alignStart : P sub.alignStart
  events : ∀ e ∈ sub.events, P e.effective

/-- Something holds of all dates that a repair proposes. -/
def Repair.Dated (repair : Repair) (P : Instant → Prop) : Prop :=
  ∀ x ∈ repair.edits, ∀ p ∈ x.proposals, P p.effective

theorem Rework.start_dated {w : Rework} (hsub : w.subscription.Dated P)
    (hproposals : ∀ p ∈ w.proposals, P p.effective) : P w.start := by
  unfold Rework.start
  split
  next first hfirst =>
    split
    · exact hproposals first (List.mem_of_head? hfirst)
    · exact hsub.start
  · exact hsub.start

namespace Planned

variable {b : Workbench} {cx : ReplayContext} {repair : Repair} {view : String}
  {works : List Rework} {plan : RepairPlan}

theorem proposals_dated (h : Planned b cx repair view works plan) (hrepair : repair.Dated P) :
    ∀ w ∈ b.works, ∀ p ∈ w.proposals, P p.effective := by
  intro w hw p hp
  obtain ⟨x, hx, hprep⟩ := Repair.prepareAll_mem h.prepared hw
  obtain ⟨-, -, -, hproposals, -⟩ := Rework.prepare_eq_ok.1 hprep
  rw [hproposals, mem_sortBy] at hp
  obtain ⟨edit, hedit, hp⟩ := Repair.exists_edit_of_proposal hx hp
  exact hrepair edit hedit p hp

/-- Repairs start from the stored and the proposed dates. -/
theorem benched_dated (h : Planned b cx repair view works plan)
    (hcx : cx.bundleStart = b.bundleStart) (hstart : P b.bundle.start)
    (hsubs : ∀ sub ∈ b.subscriptions, sub.Dated P) (hrepair : repair.Dated P) :
    P cx.bundleStart ∧ ∀ w ∈ b.works, w.Dated P := by
  have hproposals := h.proposals_dated hrepair
  have hsub : ∀ w ∈ b.works, w.subscription.Dated P := fun w hw =>
    hsubs _ (Loaded.mem_of_work h.benched hw)
  refine ⟨?_, fun w hw => ?_⟩
  · rw [hcx, Workbench.bundleStart]
    split
    next w hedited =>
      have hw : w ∈ b.works :=
        List.mem_of_find?_eq_some (Option.filter_eq_some_iff.1 hedited).1
      exact Rework.start_dated (hsub w hw) (hproposals w hw)
    next sub _ hbase => exact (hsubs sub (List.mem_of_find?_eq_some hbase)).bundleStart
    · exact hstart
  · obtain ⟨hprep, hadded⟩ := h.benched_prepared hw
    constructor
    · unfold Rework.alignStart
      split
      · exact Rework.start_dated (hsub w hw) (hproposals w hw)
      · exact (hsub w hw).alignStart
    · intro e he
      rw [Rework.events, hadded, List.append_nil] at he
      exact (hsub w hw).events e (Loaded.mem_of_kept hprep he)

include hP

/-- All dates that a repair writes are as these. -/
theorem dated (h : Planned b cx repair view works plan) (hcx : cx.bundleStart = b.bundleStart)
    (hstart : P b.bundle.start) (hsubs : ∀ sub ∈ b.subscriptions, sub.Dated P)
    (hrepair : repair.Dated P) : ∀ w ∈ works, ∀ e ∈ w.events, P e.effective := by
  obtain ⟨hbundle, hworks⟩ := h.benched_dated hcx hstart hsubs hrepair
  obtain ⟨owed, howed, r, hr, rfl⟩ := Replay.run_eq_ok.1 h.ran
  have hfirst : Replay.Dated ⟨b.works, sortBy Prospect.le owed.flatten, 0⟩ P
      (Replay.agenda b.works) := by
    refine ⟨hworks, fun p hp => ?_, fun op hop => ?_⟩
    · obtain ⟨w, hw, ps, hps, hp⟩ := Replay.mem_owed howed (mem_sortBy.1 hp)
      exact Rework.owedPhases_dated hP hbundle (hworks w hw) hps p hp
    · obtain ⟨w, hw, -, hp⟩ := Replay.mem_agenda.1 hop
      exact h.proposals_dated hrepair w hw _ hp
  exact fun w hw => ((hfirst.performAll hP hbundle hr).works w hw).events

end Planned

/-! ## Single subscriptions -/

theorem Stamp.events_dated {stamp : Stamp} {ids : Nat → EventId} {ds : List Draft}
    (h : ∀ d ∈ ds, P d.effective) : ∀ e ∈ stamp.events ids ds, P e.effective := by
  intro e he
  obtain ⟨d, hd, n, -, rfl⟩ := mem_events he
  exact h d hd

theorem Subscription.transferred?_dated {sub moved : Subscription} {stamp : Stamp}
    {bundle : BundleId} {date : Instant} {supply : Supply} (hsub : sub.Dated P) (hdate : P date)
    (h : sub.transferred? stamp bundle date supply = some moved) :
    ∀ e ∈ moved.events, P e.effective := by
  obtain ⟨start, target, hopening, rfl⟩ := transferred?_eq_some h
  have hvisible : ∀ e ∈ sub.effectiveEvents, P e.effective := fun e he =>
    hsub.events e (mem_effectiveEvents.1 he).1
  refine Stamp.events_dated (List.forall_mem_cons.2 ⟨?_, fun d hd => ?_⟩)
  · unfold opening? at hopening
    split at hopening
    · cases hopening
      exact hdate
    · obtain ⟨first, hfirst, hopening⟩ := Option.bind_eq_some_iff.1 hopening
      obtain ⟨_, -, hsame⟩ := Option.map_eq_some_iff.1 hopening
      cases hsame
      exact hvisible first (List.mem_of_find?_eq_some hfirst)
  · obtain ⟨e, he, rfl⟩ := List.mem_map.1 hd
    exact hvisible e (List.mem_filter.1 he).1

namespace Engine

variable {e : Engine} {context : CallContext} {now : Instant} {s : Store} {spec : PlanSpec}

theorem phaseDrafts_dated {i : SubscriptionId} {schedule : Schedule}
    (h : ∀ p ∈ schedule.phases, P p.start) : ∀ d ∈ phaseDrafts i schedule, P d.effective := by
  intro d hd
  obtain ⟨p, hp, rfl⟩ := List.mem_map.1 hd
  exact h p (.tail _ hp)

theorem bundleStartFor_dated {bundle : BundleId} {subs : List Subscription} {category : Category}
    {date start : Instant} (hsubs : ∀ sub ∈ subs, sub.Dated P) (hdate : P date)
    (h : bundleStartFor bundle subs category date = .ok start) : P start := by
  obtain ⟨hbase, haddOn⟩ := bundleStartFor_eq_ok h
  cases hkind : category.isBaseLike with
  | true =>
    rw [hbase hkind]
    exact hdate
  | false =>
    obtain ⟨base, hmem, -, rfl⟩ := haddOn hkind
    exact (hsubs base hmem).start

theorem policyDate_dated {sub : Subscription} (hpaid : ∀ d ∈ sub.chargedThrough, P d)
    {requested : Instant} (hrequested : P requested) (policy : ActionPolicy) :
    P (policyDate policy sub requested) := by
  unfold policyDate
  split
  next date hdate =>
    split
    · exact hpaid date hdate
    · exact hrequested
  · exact hrequested

include hP

theorem newSubscription_dated {bundle : BundleId} {sub : Subscription}
    (hsubs : ∀ sub ∈ s.subscriptionsOf bundle, sub.Dated P) (hdate : P (context.requested.getD now))
    (h : e.newSubscription context now bundle spec s = .ok sub) :
    ∀ f ∈ sub.events, P f.effective := by
  obtain ⟨plan, bundleStart, schedule, -, hbundle, halign, rfl⟩ := newSubscription_eq_ok h
  refine Stamp.events_dated (List.forall_mem_cons.2 ⟨hdate, phaseDrafts_dated ?_⟩)
  exact Catalog.alignOnCreate_keeps hP halign (bundleStartFor_dated hsubs hdate hbundle) hdate hdate

theorem changeEvents_dated {i : SubscriptionId} {events : List Event}
    (hsub : ∀ sub, s.subscription? i = some sub →
      sub.Dated P ∧ ∀ d ∈ sub.chargedThrough, P d)
    (hdate : P (context.requested.getD now))
    (h : e.changeEvents context now i spec s = .ok events) : ∀ f ∈ events, P f.effective := by
  obtain ⟨sub, current, plan, terms, schedule, hfound, -, -, -, halign, rfl⟩ :=
    changeEvents_eq_ok h
  obtain ⟨hdated, hpaid⟩ := hsub sub hfound
  have heffective := policyDate_dated hpaid hdate terms.policy
  refine Stamp.events_dated (List.forall_mem_cons.2 ⟨heffective, phaseDrafts_dated ?_⟩)
  exact Catalog.alignOnChange_keeps hP halign hdated.bundleStart hdated.alignStart heffective

end Engine

end Keeps

/-! ## Leap seconds -/

theorem Store.Tidy.visible_dated {s : Store} (hs : s.Tidy) {r : SubscriptionRecord}
    (hr : r ∈ s.records) : (s.visible r).Dated Instant.RoundsDown where
  start := Instant.roundsDown_of_floorMillis (hs.recordDates r hr).start
  bundleStart := Instant.roundsDown_of_floorMillis (hs.recordDates r hr).bundleStart
  alignStart := Instant.roundsDown_of_floorMillis (hs.recordDates r hr).alignStart
  events := fun e he => Instant.roundsDown_of_floorMillis (Store.visible_dates hs r e he)

theorem Store.Tidy.subscription?_dated {s : Store} (hs : s.Tidy) {i : SubscriptionId}
    {sub : Subscription} (h : s.subscription? i = some sub) :
    sub.Dated Instant.RoundsDown ∧ ∀ d ∈ sub.chargedThrough, d.RoundsDown := by
  obtain ⟨r, hr, -, rfl⟩ := (Store.subscription?_eq_some hs).1 h
  exact ⟨hs.visible_dated hr, fun d hd =>
    Instant.roundsDown_of_floorMillis ((hs.recordDates r hr).chargedThrough d hd)⟩

theorem Store.Tidy.loaded_dated {s : Store} (hs : s.Tidy) (b : BundleId) :
    ∀ sub ∈ s.subscriptionsOf b, sub.Dated Instant.RoundsDown := by
  intro sub hsub
  obtain ⟨r, hr, -, rfl⟩ := Store.mem_subscriptionsOf.1 hsub
  exact hs.visible_dated hr

theorem Repair.Dated.roundsDown {repair : Repair} (h : repair.Dated fun t => t.isLeap = false) :
    repair.Dated Instant.RoundsDown :=
  fun x hx p hp => Instant.roundsDown_of_not_leap (h x hx p hp)

namespace Planned

variable {bundle : Bundle} {benched works : List Rework} {cx : ReplayContext} {repair : Repair}
  {view : String} {plan : RepairPlan} {s : Store} {b : BundleId}
  (hp : Planned ⟨bundle, s.subscriptionsOf b, benched⟩ cx repair view works plan) (hs : s.Tidy)
  (hbundle : bundle ∈ s.bundles)
  (hcx : cx.bundleStart = Workbench.bundleStart ⟨bundle, s.subscriptionsOf b, benched⟩)
  (hleap : repair.Dated fun t => t.isLeap = false)

include hp hs hbundle hcx hleap

/-- A repair that proposes nothing for a leap second writes no dates that rounding moves on. -/
theorem roundsDown : ∀ w ∈ works, ∀ e ∈ w.events, e.effective.RoundsDown :=
  hp.dated Duration.keeps_roundsDown hcx
    (Instant.roundsDown_of_floorMillis (hs.bundleDates bundle hbundle)) (hs.loaded_dated b)
    hleap.roundsDown

theorem owed_roundsDown {w : Rework} (hw : w ∈ benched) {owed : List Prospect}
    (h : w.owedPhases cx = .ok owed) : ∀ q ∈ owed, q.date.RoundsDown := by
  obtain ⟨hstart, hworks⟩ := hp.benched_dated hcx
    (Instant.roundsDown_of_floorMillis (hs.bundleDates bundle hbundle)) (hs.loaded_dated b)
    hleap.roundsDown
  exact Rework.owedPhases_dated Duration.keeps_roundsDown hstart (hworks w hw) h

end Planned

namespace Step.OffLeaps

variable {e : Engine} {context : CallContext} {now : Instant} {call : Call}

theorem asked (h : Step.OffLeaps ⟨e, context, now, call⟩) :
    (context.requested.getD now).RoundsDown :=
  Instant.roundsDown_of_not_leap (h _ List.mem_cons_self)

theorem proposals {b : BundleId} {repair : Repair} {dryRun : Bool}
    (h : Step.OffLeaps ⟨e, context, now, .repair b repair dryRun⟩) :
    repair.Dated fun t => t.isLeap = false := fun x hx _ hp =>
  h _ (.tail _ (List.mem_flatMap.2 ⟨x, hx, List.mem_map_of_mem hp⟩))

theorem cases {migration : AccountMigration}
    (h : Step.OffLeaps ⟨e, context, now, .migrate migration⟩) {b : BundleMigration}
    (hb : b ∈ migration.bundles) {m : SubscriptionMigration} (hm : m ∈ b.subscriptions) :
    ∀ c ∈ m.cases, c.effective.RoundsDown ∧ ∀ f ∈ c.finish, f.RoundsDown := by
  intro c hc
  have hall : ∀ t ∈ c.effective :: c.finish.toList, t.RoundsDown := fun t ht =>
    Instant.roundsDown_of_not_leap <| h t <| .tail _ <| List.mem_flatMap.2 ⟨b, hb,
      List.mem_flatMap.2 ⟨m, hm, List.mem_append_left _ (List.mem_flatMap.2 ⟨c, hc, ht⟩)⟩⟩
  exact ⟨hall _ List.mem_cons_self, fun f hf => hall f (.tail _ (Option.mem_toList.2 hf))⟩

end Step.OffLeaps

end Tenure
