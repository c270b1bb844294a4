import Tenure.Proofs.Changing
import Tenure.Proofs.SingleProposal

/-!
# Replanning a subscription

A plan can be changed by a call, or by a repair that deletes all that lies behind the date and
proposes the change there. Either way the catalog draws the change from the position in force, and
both leave what was in force up to then. The two differ in two things:

* The call goes to the price list that the catalog answers. A repair goes to the one it is given.
* The repair asks the catalog anew for the schedule behind the last transition kept, and first
  enters the phases of it that lie behind the last event kept and before the date
  (`Catalog.resumed`). The call leaves the past as it is.

The stores that come about show the same at every instant just if neither makes a difference
(`replanned_as_changed`). On the way both are read back as scripts, which are compared entry by
entry (`Switch.scripts_agree_iff`).
-/

namespace Tenure

/-! ## Two scripts compared -/

/-- Phases that stand behind all of a script and before a date, by date. -/
structure Between (xs : List TimedPayload) (phases : List TimedPhase) (date : Instant) : Prop where
  kept : ∀ x ∈ xs, x.effective.RoundsDown
  sofar : ∀ x ∈ xs, x.effective ≤ date
  resumed : ∀ p ∈ phases, p.start.RoundsDown
  behind : ∀ p ∈ phases, ∀ x ∈ xs, x.effective ≤ p.start.floorMillis
  ahead : ∀ p ∈ phases, p.start < date
  sorted : phases.Pairwise (fun a b => a.start ≤ b.start)

/-- The phases that have begun by `t`. -/
def begun (phases : List TimedPhase) (t : Instant) : List TimedPhase :=
  phases.filter (·.start.floorMillis ≤ t)

namespace Between

variable {xs : List TimedPayload} {phases : List TimedPhase} {date t : Instant} {target : Target}
  {p : TimedPhase} (h : Between xs phases date)

include h

theorem begun_eq (hlast : phases.getLast? = some p) (ht : p.start.floorMillis ≤ t) :
    begun phases t = phases := by
  refine List.filter_eq_self.2 fun q hq => decide_eq_true ?_
  exact Int.le_trans
    (Instant.floorMillis_mono (h.resumed q hq) (le_getLast? h.sorted hlast q hq)) ht

theorem begun_of_le (ht : date ≤ t) : begun phases t = phases :=
  List.filter_eq_self.2 fun q hq => decide_eq_true (Int.le_trans (h.resumed q hq)
    (Int.le_trans (Int.le_of_lt (h.ahead q hq)) ht))

theorem le_date : ∀ x ∈ xs ++ phases.map (·.entry), x.effective ≤ date := by
  intro x hx
  rcases List.mem_append.1 hx with hx | hx
  · exact h.sofar x hx
  · obtain ⟨p, hp, rfl⟩ := List.mem_map.1 hx
    exact Int.le_of_lt (h.ahead p hp)

theorem roundsDown : ∀ x ∈ xs ++ phases.map (·.entry), x.effective.RoundsDown :=
  List.forall_mem_append.2 ⟨h.kept, List.forall_mem_map.2 h.resumed⟩

/-- Phases in front make no difference to a script just as long as the last one begun is the phase
that the script is in. -/
theorem scriptAt_eq_iff (htarget : scriptAt xs date = some target) (t : Instant) :
    scriptAt xs t = scriptAt (xs ++ phases.map (·.entry)) t ↔
      ∀ p, (begun phases t).getLast? = some p → p.phase.name = target.phase := by
  cases hlast : (begun phases t).getLast? with
  | none =>
    have hnone : (phases.map (·.entry)).filter (·.effective.floorMillis ≤ t) = [] := by
      rw [List.filter_map]
      exact congrArg (List.map _) (List.getLast?_eq_none_iff.1 hlast)
    rw [scriptAt_append, hnone]
    simp [leads]
  | some p =>
    obtain ⟨hp, hbegun⟩ := List.mem_filter.1 (List.mem_of_getLast? hlast)
    have hxs : ∀ x ∈ xs, x.effective ≤ t :=
      fun x hx => Int.le_trans (h.behind p hp x hx) (of_decide_eq_true hbegun)
    have hscript : scriptAt xs t = some target := by
      rw [scriptAt_eq_leads h.kept hxs, ← htarget, scriptAt_eq_leads h.kept h.sofar]
    have hname : ((begun phases t).map (·.phase.name)).getLastD target.phase = p.phase.name := by
      rw [List.getLastD_eq_getLast?, List.getLast?_map, hlast]
      rfl
    rw [scriptAt_append_phases hscript, hscript, Option.some_inj]
    change target = { target with
      phase := ((begun phases t).map (·.phase.name)).getLastD target.phase } ↔ _
    rw [hname]
    simp only [Option.some_inj, forall_eq']
    exact ⟨fun hsame => (congrArg Target.phase hsame).symm, fun hsame => by rw [hsame]⟩

end Between

/-- Two changes at one date, the second one with further phases in front: the scripts agree
throughout if the changes are to one price list and the phases make no difference. -/
theorem Switch.scripts_agree_iff {x y : Switch} {catalog : Catalog} {anchors : Anchors}
    {spec : PlanSpec} {date : Instant} {xs : List TimedPayload} {phases : List TimedPhase}
    (hx : x.Drawn catalog anchors spec date) (hy : y.Drawn catalog anchors spec date)
    (hdate : date.floorMillis = date) (h : Between xs phases date)
    (hcurrent : scriptAt xs date = some x.current)
    (hcurrent' : scriptAt (xs ++ phases.map (·.entry)) date = some y.current) :
    (∀ t, scriptAt (xs ++ x.script date) t =
        scriptAt (xs ++ phases.map (·.entry) ++ y.script date) t) ↔
      x.priceList = y.priceList ∧
        ∀ t p, (begun phases t).getLast? = some p → p.phase.name = x.current.phase := by
  constructor
  · intro hagree
    refine ⟨?_, fun t p hlast => ?_⟩
    · have hdiffer := hagree date
      rw [Switch.script, Switch.script,
        scriptAt_append_change (by rw [hcurrent]; rfl) hdate (Int.le_refl _),
        scriptAt_append_change (by rw [hcurrent']; rfl) hdate (Int.le_refl _)] at hdiffer
      exact congrArg Target.priceList (Option.some.inj hdiffer)
    · have hbefore {t : Instant} (ht : t < date) {p : TimedPhase}
          (hlast : (begun phases t).getLast? = some p) : p.phase.name = x.current.phase := by
        refine (h.scriptAt_eq_iff hcurrent t).1 ?_ p hlast
        rw [← hx.scriptAt_of_lt hdate ht, hagree, hy.scriptAt_of_lt hdate ht]
      by_cases ht : t < date
      · exact hbefore ht hlast
      · -- The last phase has begun before the date.
        rw [h.begun_of_le (Int.not_lt.1 ht)] at hlast
        refine hbefore (t := p.start.floorMillis) ?_
          (by rw [h.begun_eq hlast (Int.le_refl _), hlast])
        have hp := List.mem_of_getLast? hlast
        exact Int.lt_of_le_of_lt (h.resumed p hp) (h.ahead p hp)
  · rintro ⟨hprice, hnames⟩ t
    have hsame := (h.scriptAt_eq_iff hcurrent date).2 (hnames date)
    obtain rfl : x = y := hx.eq hy
      (Option.some.inj (hcurrent.symm.trans (hsame.trans hcurrent'))) hprice
    by_cases ht : t < date
    · rw [hx.scriptAt_of_lt hdate ht, hx.scriptAt_of_lt hdate ht]
      exact (h.scriptAt_eq_iff hcurrent t).2 (hnames t)
    · have ht := Int.not_lt.1 ht
      rw [Switch.script,
        scriptAt_append_change (by rw [scriptAt_of_le h.kept h.sofar ht, hcurrent]; rfl) hdate ht,
        scriptAt_append_change (by rw [scriptAt_of_le h.roundsDown h.le_date ht, hcurrent']; rfl)
          hdate ht]

/-! ## What the repair resumes -/

/-- The phases that the catalog, asked anew for the schedule behind the last transition up to
`date`, puts behind the last event up to then and before `date`. -/
def Catalog.resumed (catalog : Catalog) (sub : Subscription) (date : Instant) : List TimedPhase :=
  match (sub.upTo date).getLast?, (transitions (sub.upTo date)).getLast? with
  | some last, some t => match catalog.alignTransition sub.anchors t with
    | .ok (some schedule) =>
      schedule.upcoming.filter fun p => last.effective < p.start && p.start < date
    | _ => []
  | _, _ => []

theorem Catalog.resumed_cases (catalog : Catalog) (sub : Subscription) (date : Instant) :
    catalog.resumed sub date = [] ∨ ∃ last t schedule, (sub.upTo date).getLast? = some last ∧
      t ∈ transitions (sub.upTo date) ∧
      catalog.alignTransition sub.anchors t = .ok (some schedule) ∧ catalog.resumed sub date =
        schedule.upcoming.filter fun p => last.effective < p.start && p.start < date := by
  unfold resumed
  split
  next last t hlast ht =>
    split
    next schedule halign =>
      exact .inr ⟨last, t, schedule, hlast, List.mem_of_getLast? ht, halign, rfl⟩
    · exact .inl rfl
  · exact .inl rfl

theorem Catalog.resumed_between (catalog : Catalog) {sub : Subscription}
    (hmillis : ∀ f ∈ sub.events, f.effective.floorMillis = f.effective)
    (hdated : sub.Dated Instant.RoundsDown) (date : Instant) :
    Between ((sub.upTo date).map (·.timed)) (catalog.resumed sub date) date := by
  have hsofar : ∀ x ∈ (sub.upTo date).map (·.timed), x.effective ≤ date := by
    intro x hx
    obtain ⟨f, hf, rfl⟩ := List.mem_map.1 hx
    exact of_decide_eq_true (List.mem_filter.1 hf).2
  have hsource {f : Event} (hf : f ∈ sub.upTo date) : f ∈ sub.events :=
    (mem_effectiveEvents.1 (List.mem_filter.1 hf).1).1
  have hkept : ∀ x ∈ (sub.upTo date).map (·.timed), x.effective.RoundsDown :=
    List.forall_mem_map.2 fun f hf => hdated.events f (hsource hf)
  rcases catalog.resumed_cases sub date with
    hnone | ⟨last, t, schedule, hlast, ht, halign, hresumed⟩
  · rw [hnone]
    exact ⟨hkept, hsofar, by simp, by simp, by simp, .nil⟩
  · have hmem {p : TimedPhase} (hp : p ∈ catalog.resumed sub date) :
        last.effective < p.start ∧ p.start < date := by
      rw [hresumed] at hp
      simpa using (List.mem_filter.1 hp).2
    obtain ⟨_, _, -, -, hseen⟩ := alignTransition_seenAt halign
    obtain ⟨e, he, hdate⟩ := exists_event_of_transition ht
    have hphases := Catalog.alignTransition_keeps Duration.keeps_roundsDown halign
      hdated.bundleStart hdated.alignStart
      (hdate ▸ hdated.events e (hsource (mem_effectiveEvents.1 he).1))
    have hresumes : ∀ p ∈ catalog.resumed sub date, p.start.RoundsDown := fun p hp =>
      hphases p (.tail _ (List.mem_filter.1 (hresumed ▸ hp)).1)
    refine ⟨hkept, hsofar, hresumes, fun p hp x hx => ?_, fun p hp => (hmem hp).2, ?_⟩
    · obtain ⟨f, hf, rfl⟩ := List.mem_map.1 hx
      have hle : f.effective ≤ last.effective :=
        le_getLast? ((pairwise_date_effectiveEvents _).sublist List.filter_sublist) hlast f hf
      exact (Instant.le_floorMillis (hmillis f (hsource hf)) (hresumes p hp)).2
        (Int.le_of_lt (Int.lt_of_le_of_lt hle (hmem hp).1))
    · rw [hresumed]
      exact (List.pairwise_cons.1 hseen.sorted).2.sublist List.filter_sublist

/-- The repair deletes what the subscription shows behind `date`, and proposes a change there. -/
structure Repair.Replans (repair : Repair) (sub : Subscription) (spec : PlanSpec)
    (date : Instant) : Prop where
  deletes : ∀ i, repair.Deletes sub.id i ↔
    ∃ f ∈ sub.effectiveEvents, f.id = i ∧ date < f.effective
  proposes : ∃ initial, repair.proposalsFor sub.id = [⟨.change, date, some spec, initial⟩]

namespace Rework

variable {cx : ReplayContext} {w : Rework} {date : Instant} {owed : List Prospect}

/-- The phases that a repair resumes, if it does something to the subscription and does not build it
anew: those of the schedule that the catalog lays out behind the last transition kept which lie
behind the last event kept. -/
def resumed (w : Rework) (cx : ReplayContext) : List TimedPhase :=
  if !w.isTouched || w.isRecreated then []
  else match w.lastKept?, (transitions w.kept).getLast? with
    | some last, some t => match cx.catalog.alignTransition (w.anchors cx) t with
      | .ok (some schedule) => schedule.upcoming.filter (last < ·.start)
      | _ => []
    | _, _ => []

theorem map_timed_owed (h : w.owedPhases cx = .ok owed) :
    owed.map (·.timed) = (w.resumed cx).map (·.entry) := by
  unfold owedPhases at h
  unfold resumed
  split at h
  next hleft =>
    cases h
    rw [if_pos hleft]
    rfl
  next hleft =>
    rw [if_neg hleft]
    cases hlast : w.lastKept? with
    | none =>
      simp only [hlast] at h
      cases h
      rfl
    | some last =>
      cases ht : (transitions w.kept).getLast? with
      | none =>
        simp only [hlast, ht] at h
        cases h
        rfl
      | some t =>
        simp only [hlast, ht] at h ⊢
        split at h
        next hcancelled =>
          cases h
          have hnext := next_of_cancelled (List.mem_of_getLast? ht) hcancelled
          simp [Catalog.alignTransition, hnext, pure, Except.pure]
        · obtain ⟨schedule, halign, rfl⟩ := map_eq_ok.1 h
          rw [halign]
          cases schedule with
          | none => rfl
          | some schedule => exact List.map_map ..

/-- Up to a date they are what the catalog resumes, if just what lies behind it is cut off. -/
theorem resumed_before (htouched : w.isTouched = true) (hre : w.isRecreated = false)
    (hkept : w.kept = w.subscription.upTo date)
    (hanchors : w.anchors cx = w.subscription.anchors) :
    (w.resumed cx).filter (·.start < date) = cx.catalog.resumed w.subscription date := by
  rw [resumed, if_neg (by simp [htouched, hre]), Catalog.resumed, lastKept?, hkept, hanchors]
  cases (w.subscription.upTo date).getLast? with
  | none => rfl
  | some last =>
    cases (transitions (w.subscription.upTo date)).getLast? with
    | none => rfl
    | some t =>
      simp only [Option.map_some]
      split
      · rw [List.filter_filter]
        exact List.filter_congr fun p _ => Bool.and_comm _ _
      · rfl

end Rework

namespace Planned

variable {b : Workbench} {cx : ReplayContext} {repair : Repair} {view : String}
  {works : List Rework} {plan : RepairPlan} {w : Rework} {spec : PlanSpec} {date : Instant}

theorem kept_of_replans (h : Planned b cx repair view works plan)
    (hload : Loaded b.subscriptions cx.ids) (hw : w ∈ works)
    (hreplans : repair.Replans w.subscription spec date) : w.kept = w.subscription.upTo date := by
  have hprep := h.work_prepared hw
  have hdeleted (i : EventId) : i ∈ w.deleted ↔
      ∃ f ∈ w.subscription.effectiveEvents, f.id = i ∧ date < f.effective :=
    (h.mem_deleted hload hw).trans (hreplans.deletes i)
  have hkept : w.kept.filter (·.effective ≤ date) = w.kept := by
    refine List.filter_eq_self.2 fun f hf => decide_eq_true (Int.not_lt.1 fun hlt => ?_)
    exact hprep.keptNotDeleted f hf ((hdeleted f.id).2 ⟨f, hprep.kept_sublist.subset hf, rfl, hlt⟩)
  have hcut : w.cut.filter (·.effective ≤ date) = [] := by
    refine List.filter_eq_nil_iff.2 fun f hf hle => ?_
    obtain ⟨g, hg, hid, hlt⟩ := (hdeleted f.id).1 (hprep.cutDeleted f hf)
    have hf : f ∈ w.subscription.effectiveEvents := hprep.cut ▸ List.mem_append_right _ hf
    obtain rfl := List.inj_on_of_nodup_map
      (nodup_ids_effectiveEvents (hload.eventIds _ (h.work_mem hw))) hg hf hid
    exact absurd hlt (Int.not_lt.2 (of_decide_eq_true hle))
  rw [Subscription.upTo, hprep.cut, List.filter_append, hkept, hcut, List.append_nil]

theorem bundleStart_of_sole (h : Planned b cx repair view works plan)
    (hload : Loaded b.subscriptions cx.ids) (hw : w ∈ works)
    (hsole : b.subscriptions = [w.subscription]) (hbase : w.isBaseLike = true)
    (hre : w.isRecreated = false) : b.bundleStart = w.subscription.bundleStart := by
  have hedited := h.editedBase?_eq hload hw hbase fun x hx _ => by simpa [hsole] using hx
  have hnone : b.editedBase?.filter (·.isRecreated) = none := by
    rw [hedited, Option.filter_some, if_neg]
    exact Bool.eq_false_iff.1 hre
  have hbase? : b.base? = some w.subscription := by
    rw [Workbench.base?, hsole]
    exact List.find?_cons_of_pos hbase
  rw [Workbench.bundleStart, hnone, hbase?]

/-- **The change a repair puts in** stands behind what is kept and the phases that are resumed, and
is drawn from the position reached there. -/
theorem replanned (h : Planned b cx repair view works plan)
    (hload : Loaded b.subscriptions cx.ids) (hw : w ∈ works) {initial : Option PhaseType}
    (hproposals : w.proposals = [⟨.change, date, some spec, initial⟩])
    (hkept : w.kept = w.subscription.upTo date)
    (hanchors : w.anchors cx = w.subscription.anchors)
    (hbetween : Between (w.kept.map (·.timed)) (cx.catalog.resumed w.subscription date) date) :
    ∃ y : Switch, y.Drawn cx.catalog w.subscription.anchors spec date ∧
      y.priceList = spec.priceList ∧
      scriptAt (w.kept.map (·.timed) ++ (cx.catalog.resumed w.subscription date).map (·.entry))
        date = some y.current ∧
      w.added.map (·.timed) =
        (cx.catalog.resumed w.subscription date).map (·.entry) ++ y.script date := by
  have hre : w.isRecreated = false := by
    rw [Rework.isRecreated, hproposals]
    rfl
  have htouched : w.isTouched = true := by simp [Rework.isTouched, hproposals]
  obtain ⟨owed, before, payload, prospects, howed, hout, hadded⟩ := h.sequel hload hw hproposals
    (by rintro ⟨⟩)
  have hentered : before.added.map (·.timed) =
      (cx.catalog.resumed w.subscription date).map (·.entry) := by
    rw [hout.entered, ← Rework.resumed_before htouched hre hkept hanchors]
    have hfront := congrArg (List.filter (·.effective < date)) (Rework.map_timed_owed howed)
    rw [List.filter_map, List.filter_map] at hfront
    exact hfront
  cases hout.carried with
  | creation type => cases type
  | cancel type => cases type
  | @change current' found _ schedule _ live hfound halign =>
    simp only [Rework.planFor, bind_eq_ok, liftCatalog_eq_ok, guard_eq_ok, pure_eq_ok,
      Prod.mk.injEq] at hfound
    obtain ⟨_, hplan, -, rfl, rfl⟩ := hfound
    have hbare : before.anchors cx = w.anchors cx := congrArg (·.anchors cx) hout.bare
    rw [hbare, hanchors] at halign
    refine ⟨⟨current', _, spec.priceList, schedule⟩, ⟨hplan, halign⟩, rfl, ?_, ?_⟩
    · have hcursor := hout.held _ live
      have hevents : before.events = w.kept ++ before.added :=
        congrArg (·.kept ++ before.added) hout.bare
      have hreached := target_through (c := .start) (fun _ => rfl)
        (congrArg Cursor.cancelled hcursor)
      rw [← Rework.cursor, hcursor, hevents] at hreached
      rw [scriptAt_eq_leads hbetween.roundsDown hbetween.le_date, ← hentered, List.map_append,
        List.map_map, List.map_map]
      rw [List.map_append] at hreached
      exact hreached.symm
    · rw [hadded, hentered, Prospect.map_timed_ofSchedule (Catalog.alignOnChange_seenAt halign)]
      rfl

end Planned

/-! ## What is read back -/

/-- What is laid down by date without a cancellation is read back as its script. -/
theorem Store.targetAt?_of_laid {t : Store} (ht : t.Tidy) {r : SubscriptionRecord}
    {es : List Event} {n v : Nat} (h : Laid n (t.shown r) (es.map (·, v)))
    (hdate : es.Pairwise (fun a b => a.effective ≤ b.effective))
    (hdown : ∀ e ∈ es, e.effective.RoundsDown) (htype : ∀ e ∈ es, e.type ≠ .cancel) (u : Instant) :
    (t.visible r).targetAt? u = scriptAt (es.map (·.timed)) u := by
  rw [targetAt?_visible ht, standingAt_bind_target?_of_no_cancel (shown_ids ht r) fun f hf => ?_,
    h.courseAt_eq (shown_orderings ht r) (hdate.sublist List.filter_sublist)
      fun e he => hdown e (List.mem_filter.1 he).1, scriptAt_map_timed]
  obtain ⟨e, he, hsame⟩ := h.mem_type hf
  exact hsame ▸ htype e he

theorem Switch.script_type {x : Switch} {date : Instant} :
    ∀ y ∈ x.script date, y.payload.type ≠ .cancel := by
  refine List.forall_mem_cons.2 ⟨nofun, fun y hy => ?_⟩
  obtain ⟨p, -, rfl⟩ := List.mem_map.1 hy
  nofun

/-- **A repair that replans** a subscription alone in its bundle leaves the script of what is kept,
of the phases that are resumed and of the change. -/
theorem Engine.targetAt?_replanned {s u : Store} {e : Engine} {context : CallContext}
    {now date : Instant} {b : BundleId} {sub : Subscription} {spec : PlanSpec} {repair : Repair}
    {view : TimelineView} (hs : s.Ongoing) (hsole : s.subscriptionsOf b = [sub])
    (hbase : sub.category = .base) (hreplans : repair.Replans sub spec date)
    (h : e.repair context now b repair false s = (.ok view, u))
    (hbetween : Between ((sub.upTo date).map (·.timed)) (e.catalog.resumed sub date) date)
    (hdate : date.RoundsDown) :
    ∃ y : Switch, ∃ repaired, y.Drawn e.catalog sub.anchors spec date ∧
      y.priceList = spec.priceList ∧
      scriptAt ((sub.upTo date).map (·.timed) ++ (e.catalog.resumed sub date).map (·.entry)) date =
        some y.current ∧
      u.subscription? sub.id = some repaired ∧ ∀ t, repaired.targetAt? t =
        scriptAt ((sub.upTo date).map (·.timed) ++ (e.catalog.resumed sub date).map (·.entry) ++
          y.script date) t := by
  have hsound := hs.regular.sound
  obtain ⟨bundle, benched, plan, r, hp, hsweep, hrows⟩ := Engine.repair_replayed hsound h
  have hload := hsound.loaded b (e.supply_fresh s).events
  obtain ⟨initial, hproposals⟩ := hreplans.proposes
  obtain ⟨w, hw, rfl, hone⟩ :=
    hp.exists_work_of_proposal hload (hsole ▸ List.mem_singleton_self sub) hproposals
  have hkept := hp.kept_of_replans hload hw hreplans
  have hre : w.isRecreated = false := by
    rw [Rework.isRecreated, hone]
    rfl
  have hbundle := hp.bundleStart_of_sole hload hw hsole
    (show w.subscription.isBaseLike = true by rw [Subscription.isBaseLike, hbase]; rfl) hre
  have hanchors : w.anchors (Workbench.replayContext ⟨bundle, s.subscriptionsOf b, benched⟩
      e.catalog context now (e.supply s).event) = w.subscription.anchors := by
    refine congrArg₂ Anchors.mk hbundle ?_
    rw [Rework.alignStart, hre]
    rfl
  have hmoves : ∀ f ∈ w.kept, f.isMove = true := by
    intro f hf
    obtain ⟨_, -, -, hmem⟩ := hp.mem_shown_of_kept hw hf
    exact hs.moves f (Store.mem_shown.1 hmem).1
  have htouched : w.isTouched = true := by simp [Rework.isTouched, hone]
  obtain ⟨q, hq, hvisible, hfound, hlaid⟩ :=
    hp.exists_revised hsound (e.supply_fresh s).events hsweep hrows hw htouched
  rw [← hkept] at hbetween ⊢
  obtain ⟨y, hdrawn, hprice, hreached, hadded⟩ := hp.replanned hload hw hone hkept hanchors hbetween
  have hscript : w.events.map (·.timed) = w.kept.map (·.timed) ++
      ((e.catalog.resumed w.subscription date).map (·.entry) ++ y.script date) := by
    rw [Rework.events, List.map_append, hadded]
    rfl
  have htypes : ∀ f ∈ w.events, f.type ≠ .cancel := by
    intro f hf
    rcases List.mem_append.1 (show f ∈ w.kept ++ w.added from hf) with hf | hf
    · exact Event.type_ne_of_isMove (hmoves f hf)
    · have hmem := hadded ▸ List.mem_map_of_mem (f := Event.timed) hf
      rcases List.mem_append.1 hmem with hmem | hmem
      · obtain ⟨p, -, hentry⟩ := List.mem_map.1 hmem
        rw [show f.type = f.timed.payload.type from rfl, ← hentry]
        rintro ⟨⟩
      · exact Switch.script_type _ hmem
  have hdated := hsound.tidy.loaded_dated b w.subscription (hsole ▸ List.mem_singleton_self _)
  have hentries : ∀ x ∈ w.events.map (·.timed), x.effective.RoundsDown := by
    rw [hscript, ← List.append_assoc]
    exact List.forall_mem_append.2 ⟨hbetween.roundsDown,
      hdrawn.script_roundsDown hdated.bundleStart hdated.alignStart hdate⟩
  have hdown : ∀ f ∈ w.events, f.effective.RoundsDown := fun f hf =>
    hentries f.timed (List.mem_map_of_mem hf)
  refine ⟨y, _, hdrawn, hprice, hreached, hfound, fun t => ?_⟩
  rw [Store.targetAt?_of_laid (hrows.tidy hsound.tidy) hlaid
    ((hsweep.settled w hw).inOrder.imp Event.Before.date_le) hdown htypes, List.append_assoc,
    ← hscript]

/-! ## The two ways compared -/

/-- From a store in which plans were only set and changed, two stores come about: `t` by a change of
the plan of `sub`, alone in its bundle, at `date` and at once, and `u` by a repair that deletes what
`sub` shows behind `date` and proposes the change there. -/
structure BothWays (e : Engine) (b : BundleId) (sub : Subscription) (spec : PlanSpec)
    (date : Instant) (s t u : Store) : Prop where
  run : Run settingPlans {} s
  sole : s.subscriptionsOf b = [sub]
  base : sub.category = .base
  inMillis : date.floorMillis = date
  immediate : ∀ source terms, e.catalog.planChange source spec date = .ok terms →
    terms.policy = .immediate
  changed : ∃ context now changed, context.requested.getD now = date ∧
    e.changePlan context now sub.id spec s = (.ok changed, t)
  repaired : ∃ context now repair view, repair.Replans sub spec date ∧
    e.repair context now b repair false s = (.ok view, u)

/-- **Replanning is changing** the plan, just if the price list that the catalog answers is the one
asked for and whatever phase has been resumed last by an instant is the one that the subscription is
in. -/
theorem replanned_as_changed {e : Engine} {b : BundleId} {sub : Subscription} {spec : PlanSpec}
    {date : Instant} {s t u : Store} (h : BothWays e b sub spec date s t u) :
    ∃ current source terms live repaired, sub.targetAt? date = some current ∧
      e.catalog.position current date = .ok source ∧
      e.catalog.planChange source spec date = .ok terms ∧
      t.subscription? sub.id = some live ∧ u.subscription? sub.id = some repaired ∧
      ((∀ d, live.targetAt? d = repaired.targetAt? d) ↔
        terms.newPriceList = spec.priceList ∧ ∀ d p,
          (begun (e.catalog.resumed sub date) d).getLast? = some p →
            p.phase.name = current.phase) := by
  have hs := h.run.ongoing
  have htidy := hs.regular.sound.tidy
  obtain ⟨_, _, _, hrequested, hchange⟩ := h.changed
  obtain ⟨_, _, repair, _, hreplans, hrepair⟩ := h.repaired
  obtain ⟨sub', x, source, terms, live, hsub, hcurrent, hsource, hterms, hprice, hdrawn, hlive,
    hread⟩ := Engine.targetAt?_changed hs hchange hrequested h.inMillis h.immediate
  obtain ⟨r, hr, -, rfl⟩ := Store.mem_subscriptionsOf.1 (h.sole ▸ List.mem_singleton_self sub)
  obtain ⟨r', hr', hid, rfl⟩ := (Store.subscription?_eq_some htidy).1 hsub
  obtain rfl := htidy.record_unique hr' hr hid
  have hbetween := e.catalog.resumed_between (Store.visible_dates htidy r')
    (htidy.visible_dated hr') date
  obtain ⟨y, repaired, hdrawn', hprice', hcurrent', hrepaired, hread'⟩ :=
    Engine.targetAt?_replanned hs h.sole h.base hreplans hrepair hbetween
      (Instant.roundsDown_of_floorMillis h.inMillis)
  refine ⟨x.current, source, terms, live, repaired, hcurrent, hsource, hterms, hlive, hrepaired, ?_⟩
  have hagree := Switch.scripts_agree_iff hdrawn hdrawn' h.inMillis hbetween
    (hs.targetAt?_upTo r' date ▸ hcurrent) hcurrent'
  rw [hprice, hprice'] at hagree
  simp only [hread, hread']
  exact hagree

namespace Sample

/-- A base plan with a trial and a discount of so many days. -/
def musket (discount : Nat) : Plan where
  name := "musket-monthly"
  product := ⟨"musket", .base⟩
  billingPeriod := .monthly
  priceList := "DEFAULT"
  phases := [⟨"musket-monthly-trial", .trial, ⟨.days, 30⟩⟩,
    ⟨"musket-monthly-discount", .discount, ⟨.days, discount⟩⟩,
    ⟨"musket-monthly-evergreen", .evergreen, ⟨.unlimited, 0⟩⟩]

/-- An engine on a catalog with this plan besides those of the sample catalog. The discount depends
on the version of a date, and a change is answered with some price list. -/
def dealer (discount : Instant → Nat) (priceList : String → String) : Engine :=
  { engine with catalog := { engine.catalog with
      findPlan := fun spec date =>
        if spec.product == "musket" then .ok (musket (discount date))
        else engine.catalog.findPlan spec date
      findPlanByName := fun name date =>
        if name == "musket-monthly" then .ok (musket (discount date))
        else engine.catalog.findPlanByName name date
      planChange := fun _ spec _ => .ok ⟨.immediate, .startOfSubscription, priceList spec.priceList⟩
      creationAlignment := fun _ _ => .ok .startOfSubscription } }

/-- The discount lasts for 60 days, in a later version for 30. -/
def shortened (date : Instant) : Nat := if date < day 20 then 60 else 30

/-- What is asked for is answered, and no plan is ever revised. -/
def faithful : Engine := dealer (fun _ => 60) id

def loyal : Engine := dealer (fun _ => 60) fun _ => "LOYALTY"

def revising : Engine := dealer shortened id

def shotgun : PlanSpec := ⟨"shotgun", .monthly, "DEFAULT"⟩

section Dealers

variable (e : Engine)

def armed : Store :=
  after [⟨e, caller, day 0, .createBundle ⟨1⟩ "key"⟩,
    ⟨e, caller, day 0, .createSubscription ⟨1⟩ ⟨"musket", .monthly, "DEFAULT"⟩⟩]

def rearmed : Except Error Subscription × Store :=
  e.changePlan caller (day 80) ⟨1⟩ shotgun (armed e)

/-- The repair that puts the change in. -/
def rearm : Repair := ⟨"3-0",
  [⟨⟨1⟩, [⟨3⟩], [⟨.change, day 80, some shotgun, none⟩]⟩]⟩

def repaired : Except Error TimelineView × Store :=
  e.repair caller (day 80) ⟨1⟩ rearm false (armed e)

/-- Both calls succeed, and the repair deletes all that lies behind the day. -/
def Rearms : Prop :=
  ((armed e).subscriptionsOf ⟨1⟩).map (fun sub => (sub.category, sub.id,
      (sub.effectiveEvents.filter (day 80 < ·.effective)).map (·.id))) = [(.base, ⟨1⟩, [⟨3⟩])] ∧
    (rearmed e).1.toOption.isSome = true ∧ (repaired e).1.toOption.isSome = true

instance : Decidable (Rearms e) := inferInstanceAs (Decidable (_ ∧ _ ∧ _))

/-- The positions on a day, after the change and after the repair. -/
def positions (n : Nat) : Option Target × Option Target :=
  (((rearmed e).2.subscription? ⟨1⟩).bind (·.targetAt? (day n)),
    ((repaired e).2.subscription? ⟨1⟩).bind (·.targetAt? (day n)))

end Dealers

theorem rearm_replans {sub : Subscription} (hid : sub.id = ⟨1⟩)
    (hdeleted : (sub.effectiveEvents.filter (day 80 < ·.effective)).map (·.id) = [⟨3⟩]) :
    rearm.Replans sub shotgun (day 80) where
  deletes i := by
    have hmem : i ∈ (sub.effectiveEvents.filter (day 80 < ·.effective)).map (·.id) ↔ i = ⟨3⟩ := by
      rw [hdeleted, List.mem_singleton]
    simp only [List.mem_map, List.mem_filter, decide_eq_true_eq] at hmem
    rw [hid]
    simp only [Repair.Deletes, rearm, List.mem_singleton, exists_eq_left, true_and]
    rw [← hmem]
    exact exists_congr fun f => and_right_comm.trans and_assoc
  proposes := ⟨none, by rw [hid]; rfl⟩

theorem eq_ok_of_isSome {α : Type} {r : Except Error α × Store}
    (h : r.1.toOption.isSome = true) : ∃ a, r = (.ok a, r.2) := by
  obtain ⟨a, ha⟩ := exists_eq_ok h
  exact ⟨a, Prod.ext ha rfl⟩

theorem bothWays (discount : Instant → Nat) (priceList : String → String)
    (h : Rearms (dealer discount priceList)) :
    ∃ sub, sub.id = ⟨1⟩ ∧ BothWays (dealer discount priceList) ⟨1⟩ sub
      shotgun (day 80) (armed (dealer discount priceList))
      (rearmed (dealer discount priceList)).2 (repaired (dealer discount priceList)).2 := by
  obtain ⟨hread, hchange, hrepair⟩ := h
  obtain ⟨sub, _, hsole, hsub, hrest⟩ := List.map_eq_cons_iff.1 hread
  obtain rfl := List.map_eq_nil_iff.1 hrest
  simp only [Prod.mk.injEq] at hsub
  obtain ⟨hbase, hid, hdeleted⟩ := hsub
  obtain ⟨changed, hchanged⟩ := eq_ok_of_isSome hchange
  obtain ⟨view, hview⟩ := eq_ok_of_isSome hrepair
  refine ⟨sub, hid, run_after (by simp [settingPlans, Call.setsPlans]), hsole, hbase, by decide, ?_,
    ⟨caller, day 80, changed, rfl, ?_⟩,
    caller, day 80, rearm, view, rearm_replans hid hdeleted, ?_⟩
  · rintro source terms ⟨⟩
    rfl
  · rw [hid]
    exact hchanged
  · exact hview

end Sample

/-- The catalog answers what it is asked and resumes nothing, so it makes no difference. -/
theorem replanned_as_changed_sample : ∃ sub live repaired,
    BothWays Sample.faithful ⟨1⟩ sub Sample.shotgun (Sample.day 80) (Sample.armed Sample.faithful)
      (Sample.rearmed Sample.faithful).2 (Sample.repaired Sample.faithful).2 ∧
    (Sample.rearmed Sample.faithful).2.subscription? sub.id = some live ∧
    (Sample.repaired Sample.faithful).2.subscription? sub.id = some repaired ∧
    ∀ d, live.targetAt? d = repaired.targetAt? d := by
  obtain ⟨sub, -, h⟩ := Sample.bothWays (fun _ => 60) id (by decide +kernel)
  have hnone : ((Sample.armed Sample.faithful).subscriptionsOf ⟨1⟩).map
      (Sample.faithful.catalog.resumed · (Sample.day 80)) = [[]] := by
    decide +kernel
  obtain ⟨current, source, terms, live, repaired, -, -, hterms, hlive, hrepaired, hagree⟩ :=
    replanned_as_changed h
  refine ⟨sub, live, repaired, h, hlive, hrepaired, hagree.2 ⟨?_, fun d p hlast => ?_⟩⟩
  · cases hterms
    rfl
  · rw [show (Sample.armed Sample.faithful).subscriptionsOf ⟨1⟩ = [sub] from h.sole,
      List.map_singleton, List.singleton_inj] at hnone
    rw [show (Sample.dealer _ _).catalog.resumed sub _ = [] from hnone] at hlast
    cases hlast

/-- Without either condition the two come apart. A catalog that answers another price list has its
way with a change, but not with a repair. And a repair that finds the discount shortened ends it
before the change. -/
theorem replanned_not_as_changed :
    (∃ sub, sub.id = ⟨1⟩ ∧ BothWays Sample.loyal ⟨1⟩ sub Sample.shotgun (Sample.day 80)
      (Sample.armed Sample.loyal) (Sample.rearmed Sample.loyal).2
      (Sample.repaired Sample.loyal).2) ∧
    Sample.positions Sample.loyal 80 =
      (some ⟨"shotgun-monthly", "shotgun-monthly-evergreen", "LOYALTY"⟩,
        some ⟨"shotgun-monthly", "shotgun-monthly-evergreen", "DEFAULT"⟩) ∧
    (∃ sub, sub.id = ⟨1⟩ ∧ BothWays Sample.revising ⟨1⟩ sub Sample.shotgun (Sample.day 80)
      (Sample.armed Sample.revising) (Sample.rearmed Sample.revising).2
      (Sample.repaired Sample.revising).2) ∧
    Sample.positions Sample.revising 70 =
      (some ⟨"musket-monthly", "musket-monthly-discount", "DEFAULT"⟩,
        some ⟨"musket-monthly", "musket-monthly-evergreen", "DEFAULT"⟩) :=
  ⟨Sample.bothWays _ _ (by decide +kernel), by decide +kernel,
    Sample.bothWays _ _ (by decide +kernel), by decide +kernel⟩

end Tenure
