import Tenure.Proofs.Shown

/-!
# Subscriptions stay replayable

A subscription can be replayed if it shows a start event, and its state then starts where that event
lies. Every subscription is written with one start event, at the date that its record gives, and no
operation but a repair takes it away or moves it.

A repair has to keep something of a subscription or build it anew, but what it keeps need not be
the start: an event that lies in front of it, such as an uncancellation for an earlier date, will
do. Such a repair *uproots* the subscription, which cannot be replayed from then on until another
repair builds it anew. There is no other way to get there.
-/

namespace Tenure

/-! ## Start events after a write -/

theorem Laid.starts {n v : Nat} {fs es : List Event} (h : Laid n fs (es.map (·, v))) :
    starts fs = (starts es).map (·.floorMillis) := by
  have hall := h.forall₂
  clear h
  induction hall with
  | nil => rfl
  | @cons f e fs es hfe _ ih =>
    obtain ⟨k, -, rfl⟩ := hfe
    rw [starts_cons, starts_cons, ih, List.map_append, Event.filed_type]
    split <;> rfl

theorem starts_events_nil (stamp : Stamp) (ids : Nat → EventId) {ds : List Draft}
    (hds : ∀ d ∈ ds, d.payload.type.startsSubscription = false) :
    starts (stamp.events ids ds) = [] := by
  apply starts_eq_nil.2
  intro f hf
  obtain ⟨d, hd, n, -, rfl⟩ := Stamp.mem_events hf
  exact hds d hd

theorem starts_events_cons (stamp : Stamp) (ids : Nat → EventId) {d : Draft} {ds : List Draft}
    (hd : d.payload.type.startsSubscription = true)
    (hds : ∀ d ∈ ds, d.payload.type.startsSubscription = false) :
    starts (stamp.events ids (d :: ds)) = [d.effective] := by
  have hrest := starts_events_nil stamp (fun n => ids (n + 1)) hds
  have htype : (stamp.event (ids 0) d).type.startsSubscription = true := hd
  rw [Stamp.events, starts_cons, hrest, if_pos htype]
  rfl

theorem Engine.newSubscription_starts {e : Engine} {context : CallContext} {now : Instant}
    {bundle : BundleId} {spec : PlanSpec} {s : Store} {sub : Subscription}
    (h : e.newSubscription context now bundle spec s = .ok sub) :
    starts sub.events = [sub.start] := by
  obtain ⟨plan, bundleStart, schedule, -, -, -, rfl⟩ := newSubscription_eq_ok h
  exact starts_events_cons _ _ rfl fun d hd => by rw [phaseDrafts_type hd]; rfl

theorem Subscription.transferred?_starts {sub moved : Subscription} {stamp : Stamp}
    {bundle : BundleId} {date : Instant} {supply : Supply}
    (h : sub.transferred? stamp bundle date supply = some moved) :
    starts moved.events = [moved.start] := by
  obtain ⟨start, target, -, rfl⟩ := transferred?_eq_some h
  apply starts_events_cons _ _ rfl
  intro d hd
  obtain ⟨e, he, rfl⟩ := List.mem_map.1 hd
  have hkind := (List.mem_filter.1 he).2
  simp only [Bool.and_eq_true, Bool.or_eq_true, beq_iff_eq, Event.type] at hkind
  rcases hkind with ⟨-, htype | htype⟩ <;> simp only [htype] <;> rfl

/-! ## Imports -/

namespace Catalog

variable {catalog : Catalog} {now : Instant}

theorem alignEach_starts {place : PlanPlace} {cs : List MigrationCase} {events : List TimedPayload}
    {last : Option PlanPlace} (h : catalog.alignEach now (some place) cs = .ok (events, last)) :
    ∀ e ∈ events, e.payload.type.startsSubscription = false := by
  induction cs generalizing place events last with
  | nil =>
    cases h
    simp
  | cons c cs ih =>
    simp only [alignEach, bind_eq_ok, pure_eq_ok, Prod.mk.injEq] at h
    obtain ⟨place', -, ⟨rest, last'⟩, hrest, rfl, -⟩ := h
    intro e he
    rcases List.mem_cons.1 he with rfl | he
    · simp only [Option.map_some, MigrationCase.payload]
      split <;> rfl
    · exact ih hrest e he

theorem alignEnd_starts {last : MigrationCase} {place : Option PlanPlace}
    {events : List TimedPayload} (h : alignEnd last place = .ok events) :
    ∀ e ∈ events, e.payload.type.startsSubscription = false := by
  unfold alignEnd at h
  split at h
  · cases h
    simp [Payload.type, EventType.startsSubscription]
  · obtain ⟨chain, -, rfl⟩ := map_eq_ok.1 h
    intro e he
    obtain ⟨p, -, rfl⟩ := List.mem_map.1 he
    rfl
  · cases h
    simp

/-- The first case starts the subscription at its date, and nothing else does. -/
theorem alignCases_starts {cases : List MigrationCase} {events : List TimedPayload}
    (h : catalog.alignCases cases now = .ok events) :
    ∃ first rest, events = first :: rest ∧
      (sortBy MigrationCase.dateLe cases).head?.map (·.effective) = some first.effective ∧
      first.payload.type.startsSubscription = true ∧
      ∀ e ∈ rest, e.payload.type.startsSubscription = false := by
  obtain ⟨last, aligned, place, ending, hlast, haligned, hending, rfl⟩ := alignCases_eq_ok h
  cases hsorted : sortBy MigrationCase.dateLe cases with
  | nil => simp [hsorted] at hlast
  | cons c cs =>
    rw [hsorted] at haligned
    simp only [alignEach, bind_eq_ok, pure_eq_ok, Prod.mk.injEq] at haligned
    obtain ⟨place', -, ⟨rest, last'⟩, hrest, rfl, -⟩ := haligned
    refine ⟨_, rest ++ ending, rfl, rfl, rfl, fun e he => ?_⟩
    rcases List.mem_append.1 he with he | he
    · exact alignEach_starts hrest e he
    · exact alignEnd_starts hending e he

end Catalog

theorem ImportContext.starts_addMarker (cx : ImportContext) (id : EventId) (i : SubscriptionId)
    (m : SubscriptionMigration) (start : Instant) (events : List Event) :
    starts (cx.addMarker id i m start events) = starts events := by
  rcases cx.addMarker_cases id i m start events with
    hnone | ⟨date, target, front, back, hsplit, hmarker⟩
  · rw [hnone]
  · have hno : ¬ (cx.stamp.event id ⟨i, date, .migrateBilling target⟩).type.startsSubscription =
        true := nofun
    rw [hmarker, hsplit, starts_append, starts_append, starts_cons, if_neg hno, List.nil_append]

theorem ImportContext.planSubscription_starts {cx : ImportContext} {bundle : BundleId}
    {key : String} {bundleStart : Option Instant} {supply : Supply} {m : SubscriptionMigration}
    {sub : Subscription} (h : cx.planSubscription bundle key bundleStart supply m = .ok sub) :
    starts sub.events = [sub.start] := by
  obtain ⟨cases, start, bundleStart', hcases, hstart, rfl⟩ := planSubscription_eq_ok h
  obtain ⟨first, rest, rfl, -, hfirst, hrest⟩ := Catalog.alignCases_starts hcases
  have hdates : start = first.effective := by simpa using hstart.symm
  rw [starts_addMarker, List.map_cons, starts_events_cons _ _ hfirst, hdates]
  intro d hd
  obtain ⟨e, he, rfl⟩ := List.mem_map.1 hd
  exact hrest e he

/-! ## Repairs that uproot -/

namespace Repair

/-- The repair deletes an event of the subscription. -/
def Deletes (repair : Repair) (i : SubscriptionId) (e : EventId) : Prop :=
  ∃ x ∈ repair.edits, x.subscription = i ∧ e ∈ x.deleted

/-- The repair proposes a creation for the subscription. -/
def Recreates (repair : Repair) (i : SubscriptionId) : Prop :=
  ∃ x ∈ repair.edits, x.subscription = i ∧ ∃ p ∈ x.proposals, p.type.isRecreation = true

end Repair

namespace Step

/-- The step commits a repair that builds the subscription anew. -/
def Rebuilds (st : Step) (s : Store) (i : SubscriptionId) : Prop :=
  ∃ bundle repair, st.call = .repair bundle repair false ∧ st.Succeeds s ∧ repair.Recreates i

/-- The step commits a repair that deletes a start event of the subscription and does not build it
anew. -/
def Uproots (st : Step) (s : Store) (i : SubscriptionId) : Prop :=
  ∃ bundle repair, st.call = .repair bundle repair false ∧ st.Succeeds s ∧ ¬ repair.Recreates i ∧
    ∃ sub, s.subscription? i = some sub ∧
      ∃ e ∈ sub.events, e.type.startsSubscription = true ∧ repair.Deletes i e.id

end Step

namespace Planned

variable {b : Workbench} {cx : ReplayContext} {repair : Repair} {view : String}
  {works : List Rework} {plan : RepairPlan} {w : Rework}

theorem mem_deleted (h : Planned b cx repair view works plan)
    (hload : Loaded b.subscriptions cx.ids) (hw : w ∈ works) {e : EventId} :
    e ∈ w.deleted ↔ repair.Deletes w.id e := by
  rw [(h.work_edits hload hw).2.1]
  simp [Repair.Deletes, and_assoc]

theorem starts_cut_ne_nil (h : Planned b cx repair view works plan)
    (hload : Loaded b.subscriptions cx.ids) (hw : w ∈ works) :
    starts w.cut ≠ [] ↔ ∃ e ∈ w.subscription.events,
      e.type.startsSubscription = true ∧ repair.Deletes w.id e.id := by
  have hprep := h.work_prepared hw
  have hcut : effectiveEvents w.subscription.events = w.kept ++ w.cut := hprep.cut
  constructor
  · intro hne
    obtain ⟨date, hdate⟩ := List.exists_mem_of_ne_nil _ hne
    obtain ⟨e, he, htype, -⟩ := mem_starts.1 hdate
    have hmem : e ∈ effectiveEvents w.subscription.events := by
      rw [hcut]
      exact List.mem_append_right _ he
    exact ⟨e, (mem_effectiveEvents.1 hmem).1, htype,
      (h.mem_deleted hload hw).1 (hprep.cutDeleted e he)⟩
  · rintro ⟨e, he, htype, hdeleted⟩ hnil
    have hmem := mem_effectiveEvents_of_starts (hload.eventIds _ (h.work_mem hw)) he htype
    have hgone := (h.mem_deleted hload hw).2 hdeleted
    rw [hcut] at hmem
    rcases List.mem_append.1 hmem with hmem | hmem
    · exact hprep.keptNotDeleted e hmem hgone
    · exact absurd htype (by simp [starts_eq_nil.1 hnil e hmem])

/-- In good shape only the first proposal can be a creation. -/
theorem isRecreated_iff (h : Planned b cx repair view works plan)
    (hload : Loaded b.subscriptions cx.ids) (hw : w ∈ works) :
    w.isRecreated = true ↔ repair.Recreates w.id := by
  have hmem : (∃ p ∈ w.proposals, p.type.isRecreation = true) ↔ repair.Recreates w.id := by
    rw [(h.work_edits hload hw).2.2]
    simp only [mem_sortBy, List.mem_flatMap, List.mem_filter, beq_iff_eq, Repair.Recreates]
    constructor
    · rintro ⟨p, ⟨x, ⟨hx, hid⟩, hp⟩, hre⟩
      exact ⟨x, hx, hid, p, hp, hre⟩
    · rintro ⟨x, hx, hid, p, hp, hre⟩
      exact ⟨p, ⟨x, ⟨hx, hid⟩, hp⟩, hre⟩
  have hstarts := (h.work_prepared hw).proposedStarts_eq
  rw [← hmem]
  constructor
  · intro hre
    rw [if_pos hre] at hstarts
    have hfirst : w.start ∈ Replay.proposedStarts w := by simp [hstarts]
    obtain ⟨p, hp, -⟩ := List.mem_map.1 hfirst
    exact ⟨p, List.mem_filter.1 hp⟩
  · rintro ⟨p, hp, hre⟩
    by_contra hno
    rw [if_neg hno] at hstarts
    have := List.map_eq_nil_iff.1 hstarts
    exact List.filter_eq_nil_iff.1 this p hp hre

end Planned

/-! ## One step -/

namespace Store

/-- The subscription shows one start event, at the date of its record. -/
def IsRooted (s : Store) (r : SubscriptionRecord) : Prop := starts (s.shown r) = [r.start]

/-- The subscription shows no start event. -/
def IsRootless (s : Store) (r : SubscriptionRecord) : Prop := starts (s.shown r) = []

end Store

theorem Store.starts_visible (s : Store) (r : SubscriptionRecord) :
    (starts (s.visible r).events).Perm (starts (s.shown r)) :=
  ((s.visible_perm r).filter _).map _

/-- The subscription is new and rooted, or its start is what it was. -/
def Store.RootedOrLeft (s t : Store) (x : SubscriptionRecord) : Prop :=
  (∀ q ∈ s.records, q.id ≠ x.id) ∧ t.IsRooted x ∨
    ∃ q ∈ s.records, q.id = x.id ∧ q.start = x.start ∧ starts (t.shown x) = starts (s.shown q)

section Rows

variable {s t : Store} {subs : List Subscription} {es : List Event} {x : SubscriptionRecord}

theorem Rows.rootedOrLeft
    (h : Rows s t id (Store.scratchRecords subs) (Store.scratchEvents subs ++ s.atVersions es))
    (hs : s.Tidy) (hown : ∀ sub ∈ subs, ∀ e ∈ sub.events, e.subscription = sub.id)
    (hold : ∀ e ∈ es, ∃ r ∈ s.records, r.id = e.subscription)
    (hsubs : ∀ sub ∈ subs, starts sub.events = [sub.start]) (hes : starts es = [])
    (hx : x ∈ t.records) : s.RootedOrLeft t x := by
  rcases h.record_cases hs hown hold hx with ⟨sub, hsub, rfl, hnew, hlaid⟩ | ⟨hx, fs, hfs, hlaid⟩
  · refine .inl ⟨hnew, ?_⟩
    rw [Store.IsRooted, hlaid.starts, hsubs sub hsub]
    rfl
  · have hnone : starts (es.filter (·.subscription == x.id)) = [] :=
      starts_eq_nil.2 fun e he => starts_eq_nil.1 hes e (List.mem_filter.1 he).1
    refine .inr ⟨x, hx, rfl, rfl, ?_⟩
    rw [hfs, starts_append, hlaid.starts, hnone, List.map_nil, List.append_nil]

theorem Rows.rootedOrLeft_of_appended (h : Rows s t id [] (s.atVersions es)) (hs : s.Tidy)
    (hes : starts es = []) (hx : x ∈ t.records) : s.RootedOrLeft t x := by
  have rows : Rows s t id (Store.scratchRecords []) (Store.scratchEvents [] ++ s.atVersions es) := h
  exact rows.rootedOrLeft hs (by simp) (h.known_of_appended hs) (by simp) hes hx

theorem Rows.rootedOrLeft_of_scratch
    (h : Rows s t id (Store.scratchRecords subs) (Store.scratchEvents subs)) (hs : s.Tidy)
    (hown : ∀ sub ∈ subs, ∀ e ∈ sub.events, e.subscription = sub.id)
    (hsubs : ∀ sub ∈ subs, starts sub.events = [sub.start]) (hx : x ∈ t.records) :
    s.RootedOrLeft t x :=
  h.alone.rootedOrLeft hs hown (by simp) hsubs rfl hx

end Rows

/-- What a step does to the start of a subscription. -/
inductive Rooting (s t : Store) (st : Step) (x : SubscriptionRecord) : Prop
  | new (unknown : ∀ q ∈ s.records, q.id ≠ x.id) (rooted : t.IsRooted x)
  | rebuilt {q : SubscriptionRecord} (known : q ∈ s.records) (id : q.id = x.id)
      (rebuilds : st.Rebuilds s x.id) (rooted : t.IsRooted x)
  | uprooted {q : SubscriptionRecord} (known : q ∈ s.records) (id : q.id = x.id)
      (uproots : st.Uproots s x.id) (rootless : t.IsRootless x)
  | left {q : SubscriptionRecord} (known : q ∈ s.records) (id : q.id = x.id)
      (rebuilds : ¬ st.Rebuilds s x.id) (uproots : ¬ st.Uproots s x.id)
      (rooted : s.IsRooted q → t.IsRooted x) (rootless : s.IsRootless q → t.IsRootless x)

/-- What a repaired subscription keeps is rooted as it was, unless its start is cut off. -/
theorem Rework.Prepared.starts_kept {w : Rework} (hw : w.Prepared) {s : Store} (hs : s.Tidy)
    {q : SubscriptionRecord} (hq : s.visible q = w.subscription) :
    (starts w.kept ++ starts w.cut).Perm (starts (s.shown q)) := by
  rw [← starts_append, ← hw.cut, ← hq]
  exact (starts_effectiveEvents (Store.visible_ids hs q)).trans (s.starts_visible q)

theorem Rework.start_of_not_recreated {w : Rework} (h : ¬ w.isRecreated = true) :
    w.start = w.subscription.start := by
  unfold isRecreated at h
  unfold start
  cases hp : w.proposals.head? with
  | none => rfl
  | some p => simp_all

theorem Edit.isNoop_iff {x : Edit} : x.isNoop = true ↔ x.deleted = [] ∧ x.proposals = [] := by
  simp [isNoop]

namespace Step

variable {s t : Store} {e : Engine} {context : CallContext} {now : Instant} {bundle : BundleId}
  {repair : Repair} {i : SubscriptionId}

theorem rebuilds_repair
    (hdone : Step.Succeeds ⟨e, context, now, .repair bundle repair false⟩ s) :
    Step.Rebuilds ⟨e, context, now, .repair bundle repair false⟩ s i ↔ repair.Recreates i := by
  constructor
  · rintro ⟨_, _, hcall, -, hre⟩
    cases hcall
    exact hre
  · exact fun hre => ⟨bundle, repair, rfl, hdone, hre⟩

theorem uproots_repair
    (hdone : Step.Succeeds ⟨e, context, now, .repair bundle repair false⟩ s) :
    Step.Uproots ⟨e, context, now, .repair bundle repair false⟩ s i ↔ ¬ repair.Recreates i ∧
      ∃ sub, s.subscription? i = some sub ∧
        ∃ f ∈ sub.events, f.type.startsSubscription = true ∧ repair.Deletes i f.id := by
  constructor
  · rintro ⟨_, _, hcall, -, h⟩
    cases hcall
    exact h
  · exact fun h => ⟨bundle, repair, rfl, hdone, h⟩

theorem rooting_touched {b : Bundle} {benched : List Rework} {cx : ReplayContext} {view : String}
    {plan : RepairPlan} {r : Replay} (hs : s.Sound)
    (hdone : Step.Succeeds ⟨e, context, now, .repair bundle repair false⟩ s)
    (hp : Planned ⟨b, s.subscriptionsOf bundle, benched⟩ cx repair view r.works plan)
    (hload : Loaded (s.subscriptionsOf bundle) cx.ids)
    {w : Rework} (hw : w ∈ r.works) {q x : SubscriptionRecord} (hq : q ∈ s.records)
    (hroot : s.IsRooted q ∨ s.IsRootless q) (hvisible : s.visible q = w.subscription)
    (hid : x.id = q.id) (hstart : x.start = w.start.floorMillis)
    (hshown : starts (t.shown x) = (starts w.events).map (·.floorMillis)) :
    Rooting s t ⟨e, context, now, .repair bundle repair false⟩ x := by
  have hwid : w.id = x.id := (congrArg (·.id) hvisible).symm.trans hid.symm
  have hprep := hp.work_prepared hw
  have hrec := hp.isRecreated_iff hload hw
  rw [hwid] at hrec
  rw [Rework.events, starts_append, hp.starts_added hload hw] at hshown
  by_cases hre : w.isRecreated = true
  · -- Built anew, with nothing kept.
    rw [if_pos hre, hprep.recreated.1 hre] at hshown
    refine .rebuilt hq hid.symm ((rebuilds_repair hdone).2 (hrec.1 hre)) ?_
    rw [Store.IsRooted, hshown, hstart]
    rfl
  · have hkeeps : ¬ repair.Recreates x.id := fun h => hre (hrec.2 h)
    have hperm := hprep.starts_kept hs.tidy hvisible
    have hdeleted := hp.starts_cut_ne_nil hload hw
    rw [hwid] at hdeleted
    rw [if_neg hre, List.append_nil] at hshown
    rw [Rework.start_of_not_recreated hre, ← hvisible] at hstart
    have hsub : s.subscription? x.id = some w.subscription :=
      (Store.subscription?_eq_some hs.tidy).2 ⟨q, hq, hid.symm, hvisible⟩
    by_cases hcut : starts w.cut = []
    · -- The start is not cut off, so it is as it was.
      rw [hcut, List.append_nil] at hperm
      refine .left hq hid.symm (fun h => hkeeps ((rebuilds_repair hdone).1 h)) (fun h => ?_)
        (fun hrooted => ?_) fun hrootless => ?_
      · obtain ⟨-, sub, hsub', hstarts⟩ := (uproots_repair hdone).1 h
        rw [hsub] at hsub'
        cases hsub'
        exact hdeleted.2 hstarts hcut
      · rw [hrooted, List.perm_singleton] at hperm
        rw [Store.IsRooted, hshown, hperm, hstart]
        rfl
      · rw [hrootless, List.perm_nil] at hperm
        rw [Store.IsRootless, hshown, hperm, List.map_nil]
    · -- The start is cut off, and it was the only one.
      refine .uprooted hq hid.symm
        ((uproots_repair hdone).2 ⟨hkeeps, _, hsub, hdeleted.1 hcut⟩) ?_
      have hpos := List.length_pos_iff.2 hcut
      have hlength := hperm.length_eq
      rw [List.length_append] at hlength
      have hone : (starts (s.shown q)).length ≤ 1 := by
        rcases hroot with hrooted | hrootless
        · rw [hrooted, List.length_singleton]
        · rw [hrootless, List.length_nil]
          exact Nat.zero_le _
      have hnone : starts w.kept = [] := List.length_eq_zero_iff.1 (by omega)
      rw [Store.IsRootless, hshown, hnone, List.map_nil]

theorem rooting_repair {view : TimelineView} (hs : s.Sound)
    (hroot : ∀ q ∈ s.records, s.IsRooted q ∨ s.IsRootless q)
    (h : e.repair context now bundle repair false s = (.ok view, t)) {x : SubscriptionRecord}
    (hx : x ∈ t.records) : Rooting s t ⟨e, context, now, .repair bundle repair false⟩ x := by
  have hdone : Step.Succeeds ⟨e, context, now, .repair bundle repair false⟩ s := by
    show (outcome (e.repair context now bundle repair false s)).1 = .ok ()
    rw [h]
    rfl
  obtain ⟨b, benched, plan, r, hp, hsweep, hrows⟩ := Engine.repair_replayed hs h
  have hload := hs.loaded bundle (e.supply_fresh s).events
  rcases hp.record_cases hs (e.supply_fresh s).events hsweep hrows hx with
    ⟨w, hw, htouched, q, hq, hvisible, rfl, hlaid⟩ | ⟨hx, hshown, hforeign⟩
  · have hid : q.id = w.id := congrArg (·.id) hvisible
    refine rooting_touched hs hdone hp hload hw hq (hroot q hq) hvisible (Store.revise_id _ _) ?_
      hlaid.starts
    simp [Store.revise, Workbench.repaired, hid]
  · refine .left hx rfl (fun h => ?_) (fun h => ?_) (fun h => ?_) fun h => ?_
    · obtain ⟨y, hy, hyid, p, hmem, -⟩ := (rebuilds_repair hdone).1 h
      rw [(Edit.isNoop_iff.1 (hp.isNoop_of_untouched hload hforeign hy hyid)).2] at hmem
      cases hmem
    · obtain ⟨-, _, -, f, -, -, y, hy, hyid, hmem⟩ := (uproots_repair hdone).1 h
      rw [(Edit.isNoop_iff.1 (hp.isNoop_of_untouched hload hforeign hy hyid)).1] at hmem
      cases hmem
    · rwa [Store.IsRooted, hshown]
    · rwa [Store.IsRootless, hshown]

/-- Writes other than repairs root what is new and leave the rest. -/
theorem rootedOrLeft_of_wrote {st : Step} (hs : s.Sound) (h : Wrote s t st)
    (hcommit : ¬ ∃ bundle repair, st.call = .repair bundle repair false ∧ st.Succeeds s)
    {x : SubscriptionRecord} (hx : x ∈ t.records) : s.RootedOrLeft t x := by
  cases h with
  | createBundle rows =>
    have rows : Rows s t id [] (s.atVersions []) := rows
    exact rows.rootedOrLeft_of_appended hs.tidy rfl hx
  | createSubscription planned rows =>
    refine rows.rootedOrLeft_of_scratch hs.tidy (Engine.newSubscription_scratch planned).own
      (fun sub hsub => ?_) hx
    rw [List.mem_singleton.1 hsub]
    exact Engine.newSubscription_starts planned
  | changePlan planned rows =>
    refine rows.rootedOrLeft_of_appended hs.tidy (starts_eq_nil.2 fun f hf => ?_) hx
    rcases Engine.changeEvents_type planned f hf with htype | htype
    · rw [htype]
      rfl
    · rw [htype]
      rfl
  | cancel planned rows =>
    refine rows.rootedOrLeft_of_appended hs.tidy (starts_eq_nil.2 fun f hf => ?_) hx
    rw [Engine.cancelEvents_type planned f hf]
    rfl
  | uncancel planned rows =>
    refine rows.rootedOrLeft_of_appended hs.tidy (starts_eq_nil.2 fun f hf => ?_) hx
    rw [Engine.uncancelEvents_type planned f hf]
    rfl
  | setChargedThrough rows paid =>
    rw [rows.records, List.append_nil] at hx
    obtain ⟨q, hq, rfl⟩ := List.mem_map.1 hx
    obtain ⟨date, hpaid⟩ := paid q
    have hevents : t.events = s.events := by simpa [filing] using rows.events
    refine .inr ⟨q, hq, by rw [hpaid], by rw [hpaid], ?_⟩
    rw [hpaid, Store.shown, Store.shown, hevents]
  | repair planned rows done => exact (hcommit ⟨_, _, rfl, done⟩).elim
  | migrate planned rows =>
    obtain ⟨⟨hi, hscratch⟩, hmem⟩ := ImportContext.planBundles_scratch
      (Engine.supply_fresh _ _).bundles.injective (Engine.supply_fresh _ _).events.injective
      (planMigration_eq_ok planned)
    refine rows.rootedOrLeft_of_scratch hs.tidy hscratch.own (fun sub hsub => ?_) hx
    obtain ⟨_, _, _, _, _, -, _, -, hplan⟩ := hmem sub hsub
    exact ImportContext.planSubscription_starts hplan
  | transfer found planned rows =>
    obtain ⟨base, -, hsubs, -⟩ := planTransfer_eq_ok planned
    refine rows.rootedOrLeft hs.tidy ?_ (Store.known_of_planTransfer planned) (fun sub hsub => ?_)
      (starts_eq_nil.2 fun f hf => ?_) hx
    · rw [hsubs]
      exact transferAll_own
    · rw [hsubs] at hsub
      obtain ⟨_, -, _, hmoved⟩ := mem_transferAll hsub
      exact Subscription.transferred?_starts hmoved
    · rw [(cancels_of_planTransfer planned hf).1]
      rfl

theorem rooting (hs : s.Sound) (hroot : ∀ q ∈ s.records, s.IsRooted q ∨ s.IsRootless q) (st : Step)
    {x : SubscriptionRecord} (hx : x ∈ (st.after s).records) : Rooting s (st.after s) st x := by
  by_cases hcommit : ∃ bundle repair, st.call = .repair bundle repair false ∧ st.Succeeds s
  · obtain ⟨e, context, now, call⟩ := st
    obtain ⟨bundle, repair, rfl, hdone⟩ := hcommit
    have hafter : Step.after ⟨e, context, now, .repair bundle repair false⟩ s =
        (e.repair context now bundle repair false s).2 := rfl
    change (outcome (e.repair context now bundle repair false s)).1 = .ok () at hdone
    rw [hafter] at hx ⊢
    cases hres : e.repair context now bundle repair false s with
    | mk res t =>
      rw [hres] at hx hdone
      cases res with
      | error err => cases hdone
      | ok view => exact rooting_repair hs hroot hres hx
  · have hrebuilds : ¬ st.Rebuilds s x.id := fun ⟨bundle, repair, hcall, hdone, _⟩ =>
      hcommit ⟨bundle, repair, hcall, hdone⟩
    have huproots : ¬ st.Uproots s x.id := fun ⟨bundle, repair, hcall, hdone, _⟩ =>
      hcommit ⟨bundle, repair, hcall, hdone⟩
    rcases st.wrote hs with hsame | hwrote
    · rw [hsame] at hx ⊢
      exact .left hx rfl hrebuilds huproots id id
    · rcases rootedOrLeft_of_wrote hs hwrote hcommit hx with
        ⟨hnew, hrooted⟩ | ⟨q, hq, hid, hdate, hstarts⟩
      · exact .new hnew hrooted
      · refine .left hq hid hrebuilds huproots (fun h => ?_) fun h => ?_
        · rw [Store.IsRooted, hstarts, ← hdate]
          exact h
        · rw [Store.IsRootless, hstarts]
          exact h

end Step

/-! ## Runs -/

/-- Some run led here on which a repair uprooted the subscription and none has built it anew
since. -/
def Store.Uprooted (t : Store) (i : SubscriptionId) : Prop :=
  ∃ s : Store, ∃ st : Step, s.Reachable ∧ st.Uproots s i ∧
    Run (fun s st => ¬ st.Rebuilds s i) (st.after s) t

namespace Store

variable {s t : Store} {r : SubscriptionRecord}

theorem IsRooted.not_isRootless (h : s.IsRooted r) : ¬ s.IsRootless r := by
  intro h'
  rw [IsRootless, h] at h'
  cases h'

/-- A subscription shows one start event at most, at the date of its record. -/
theorem Reachable.rooted (h : s.Reachable) : ∀ r ∈ s.records, s.IsRooted r ∨ s.IsRootless r := by
  induction h with
  | refl => simp
  | @step t st hrun _ ih =>
    intro x hx
    cases st.rooting (Store.Reachable.sound hrun) ih hx with
    | new _ hrooted => exact .inl hrooted
    | rebuilt _ _ _ hrooted => exact .inl hrooted
    | uprooted _ _ _ hrootless => exact .inr hrootless
    | left hq _ _ _ hrooted hrootless => exact (ih _ hq).imp hrooted hrootless

/-- Without a start there was a repair that uprooted the subscription. -/
theorem Reachable.uprooted_of_rootless (h : s.Reachable) :
    ∀ r ∈ s.records, s.IsRootless r → s.Uprooted r.id := by
  induction h with
  | refl => simp
  | @step t st hrun _ ih =>
    intro x hx hrootless
    have hroot := Store.Reachable.rooted hrun
    cases st.rooting (Store.Reachable.sound hrun) hroot hx with
    | new _ hrooted => exact (hrooted.not_isRootless hrootless).elim
    | rebuilt _ _ _ hrooted => exact (hrooted.not_isRootless hrootless).elim
    | uprooted _ _ huproots _ => exact ⟨t, st, hrun, huproots, .refl _⟩
    | @left q hq hid hrebuilds _ hrooted _ =>
      have hbefore : t.IsRootless q :=
        (hroot q hq).resolve_left fun h => (hrooted h).not_isRootless hrootless
      obtain ⟨u, st', hu, huproots, hrun'⟩ := hid ▸ ih q hq hbefore
      exact ⟨u, st', hu, huproots, .step st hrun' hrebuilds⟩

/-- Uprooted, a subscription has no start until it is built anew. -/
theorem rootless_of_uprooted {i : SubscriptionId} (h : t.Uprooted i) :
    ∃ r ∈ t.records, r.id = i ∧ t.IsRootless r := by
  obtain ⟨s, st, hs, huproots, hrun⟩ := h
  have hreach : (st.after s).Reachable := .step st hs trivial
  have hfirst : ∃ r ∈ (st.after s).records, r.id = i ∧ (st.after s).IsRootless r := by
    obtain ⟨bundle, repair, hcall, hdone, hrec, sub, hsub, -⟩ := id huproots
    obtain ⟨q, hq, hid, -⟩ := (subscription?_eq_some hs.sound.tidy).1 hsub
    obtain ⟨x, hx, hxid⟩ := st.exists_record hs.sound hq
    refine ⟨x, hx, hxid.trans hid, ?_⟩
    rw [← hid, ← hxid] at huproots
    cases st.rooting hs.sound hs.rooted hx with
    | new hnew _ => exact (hnew q hq hxid.symm).elim
    | rebuilt _ _ hrebuilds _ =>
      obtain ⟨_, _, hcall', -, hrec'⟩ := hrebuilds
      rw [hcall] at hcall'
      cases hcall'
      exact (hrec (hid ▸ hxid ▸ hrec')).elim
    | uprooted _ _ _ hrootless => exact hrootless
    | left _ _ _ hno _ _ => exact (hno huproots).elim
  clear huproots
  induction hrun with
  | refl => exact hfirst
  | @step t st' hrun hno ih =>
    have ht : t.Reachable := hreach.trans (hrun.mono fun _ _ _ => trivial)
    obtain ⟨q, hq, hid, hrootless⟩ := ih
    obtain ⟨x, hx, hxid⟩ := st'.exists_record ht.sound hq
    refine ⟨x, hx, hxid.trans hid, ?_⟩
    cases st'.rooting ht.sound ht.rooted hx with
    | new hnew _ => exact (hnew q hq hxid.symm).elim
    | rebuilt _ _ hrebuilds _ => exact (hno (hid ▸ hxid ▸ hrebuilds)).elim
    | uprooted _ _ _ h => exact h
    | @left q' hq' hid' _ _ _ h =>
      have hsame : q' = q := ht.sound.tidy.record_unique hq' hq (hid'.trans hxid)
      exact h (hsame ▸ hrootless)

theorem IsRooted.starts_visible (h : s.IsRooted r) : starts (s.visible r).events = [r.start] :=
  List.perm_singleton.1 (h ▸ s.starts_visible r)

/-- A subscription that is rooted, if at all, is rooted if it has a state. -/
theorem isRooted_of_standing (hs : s.Tidy) (hroot : s.IsRooted r ∨ s.IsRootless r) {date : Instant}
    {st : Standing} (h : (s.visible r).standingAt date = some st) : s.IsRooted r := by
  refine hroot.resolve_right fun hrootless => ?_
  have hmem := (s.starts_visible r).mem_iff.1 (start_mem_starts (visible_ids hs r) h)
  rw [hrootless] at hmem
  cases hmem

theorem finalStanding_of_rooted (hs : s.Tidy) (h : s.IsRooted r) :
    ∃ st, finalStanding (s.visible r).events (s.visible r).category = some st ∧
      st.start = (s.visible r).start := by
  have hids := visible_ids hs r
  cases hst : finalStanding (s.visible r).events (s.visible r).category with
  | none =>
    have hnone := (standingAt_eq_none hids).1 hst
    rw [h.starts_visible] at hnone
    cases hnone
  | some st =>
    have hmem := start_mem_starts hids hst
    rw [h.starts_visible, List.mem_singleton] at hmem
    exact ⟨st, rfl, hmem⟩

theorem finalStanding_of_rootless (hs : s.Tidy) (h : s.IsRootless r) :
    finalStanding (s.visible r).events (s.visible r).category = none := by
  have hperm := s.starts_visible r
  rw [h, List.perm_nil] at hperm
  exact (standingAt_eq_none (visible_ids hs r)).2 hperm

end Store

/-- **What keeps a subscription from being replayed.** Whatever operations led to a store, the state
after all events of a subscription starts where its record says, and there is such a state unless a
repair uprooted the subscription: deleted its start, kept something that lies in front of it, and
built nothing anew. Until a later repair does, no operation brings the state back. -/
theorem replay_fails_iff_uprooted {s : Store} (hs : s.Reachable) {i : SubscriptionId}
    {sub : Subscription} (hsub : s.subscription? i = some sub) :
    (∀ st, finalStanding sub.events sub.category = some st → st.start = sub.start) ∧
      (finalStanding sub.events sub.category = none ↔ s.Uprooted i) := by
  have hsound := hs.sound
  obtain ⟨r, hr, rfl, rfl⟩ := (Store.subscription?_eq_some hsound.tidy).1 hsub
  rcases hs.rooted r hr with hrooted | hrootless
  · obtain ⟨st, hst, hstart⟩ := Store.finalStanding_of_rooted hsound.tidy hrooted
    refine ⟨fun st' hst' => ?_, fun hnone => ?_, fun huprooted => ?_⟩
    · rw [hst] at hst'
      exact Option.some.inj hst' ▸ hstart
    · rw [hst] at hnone
      cases hnone
    · obtain ⟨q, hq, hid, hrootless⟩ := Store.rootless_of_uprooted huprooted
      obtain rfl := hsound.tidy.record_unique hq hr hid
      exact (hrooted.not_isRootless hrootless).elim
  · have hnone := Store.finalStanding_of_rootless hsound.tidy hrootless
    refine ⟨fun st hst => ?_, fun _ => hs.uprooted_of_rootless r hr hrootless, fun _ => hnone⟩
    rw [hnone] at hst
    cases hst

/-- A subscription that was cancelled, and uncancelled for a date before its creation, keeps that
uncancellation when all the rest is deleted. -/
def Sample.uprooting : List Step :=
  [step 0 (.createBundle ⟨1⟩ "key"),
    step 2 (.createSubscription ⟨1⟩ ⟨"pistol", .monthly, "DEFAULT"⟩),
    step 3 (.cancel ⟨1⟩),
    ⟨engine, { caller with requested := some (day 1) }, day 4, .uncancel ⟨1⟩⟩,
    step 5 (.repair ⟨1⟩ ⟨"4-345600000", [⟨⟨1⟩, [⟨1⟩, ⟨2⟩], []⟩]⟩ false)]

theorem replay_fails_iff_uprooted_sample :
    ∃ sub, (Sample.after Sample.uprooting).subscription? ⟨1⟩ = some sub ∧
      sub.version = 2 ∧ (Sample.after Sample.uprooting).Uprooted ⟨1⟩ := by
  have hread : ((Sample.after Sample.uprooting).subscription? ⟨1⟩).map (fun sub =>
      (sub.version, finalStanding sub.events sub.category)) = some (2, none) := by
    decide +kernel
  obtain ⟨sub, hsub, hread⟩ := Option.map_eq_some_iff.1 hread
  obtain ⟨hversion, hnone⟩ := Prod.mk.inj hread
  exact ⟨sub, hsub, hversion,
    (replay_fails_iff_uprooted (Sample.reachable_after _) hsub).2.1 hnone⟩

end Tenure
