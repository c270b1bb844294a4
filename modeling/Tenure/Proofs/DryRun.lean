import Mathlib.Data.List.Flatten
import Tenure.Proofs.Dates
import Tenure.Proofs.Failures
import Tenure.Proofs.Views

/-!
# Dry runs

A dry run shows what a commit of the same repair would leave. The planned history of a subscription
is settled (`Sweep.settled`), and filing keeps it so: the events are renumbered in the order in
which they stand, dates are rounded alike, and a cancellation cannot come to lie at the date of an
uncancellation behind it, since kept dates are rounded already (`Settled.filed`). So what is read
back after the commit is the planned list, event by event.

This takes dates that stay in order when they are rounded (`StaysInOrder`). A date in a leap second
is taken for one in the second that follows, past whatever is dated earlier there, so a repair that
proposes one may show an order that is not read back.

That the commit succeeds at all takes the identifiers: kept ones belong to their subscription alone,
new ones are new, and no event of the next version exists yet.
-/

namespace Tenure

/-! ## Settled histories are filed as they are -/

theorem pairwise_of_forall₂ {α β : Type} {R : α → β → Prop} {S : β → β → Prop}
    {T U : α → α → Prop} {xs : List α} {ys : List β} (h : List.Forall₂ R xs ys)
    (hys : ys.Pairwise S) (hxs : xs.Pairwise T)
    (hrel : ∀ x x' y y', R x y → R x' y' → y ∈ ys → y' ∈ ys → S y y' → T x x' → U x x') :
    xs.Pairwise U := by
  induction h with
  | nil => exact .nil
  | @cons x y xs ys hxy htail ih =>
    obtain ⟨hy, hys⟩ := List.pairwise_cons.1 hys
    obtain ⟨hx, hxs⟩ := List.pairwise_cons.1 hxs
    refine List.pairwise_cons.2 ⟨fun x' hx' => ?_, ih hys hxs fun x x' y y' hr hr' hm hm' =>
      hrel x x' y y' hr hr' (by simp [hm]) (by simp [hm'])⟩
    obtain ⟨y', hy', hr'⟩ := exists_right_of_forall₂ htail hx'
    exact hrel x x' y y' hxy hr' (by simp) (by simp [hy']) (hy y' hy') (hx x' hx')

/-- The dates of the events come in their order when they are rounded. -/
def StaysInOrder (es : List Event) : Prop :=
  es.Pairwise fun a b => a.effective.floorMillis ≤ b.effective.floorMillis

theorem StaysInOrder.of_roundsDown {es : List Event}
    (hdate : es.Pairwise (fun a b => a.effective ≤ b.effective))
    (hdown : ∀ e ∈ es, e.effective.RoundsDown) : StaysInOrder es :=
  hdate.imp_of_mem fun ha _ hle => Instant.floorMillis_mono (hdown _ ha) hle

theorem Settled.staysInOrder {es : List Event} (h : Settled es)
    (hdown : ∀ e ∈ es, e.effective.RoundsDown) : StaysInOrder es :=
  .of_roundsDown (h.inOrder.imp Event.Before.date_le) hdown

/-- What stands behind an event does not supersede it once the two are filed, if it does not come to
lie before it, and no cancellation comes to lie at an uncancellation behind it. -/
theorem Settled.not_isSupersededBy_filed {es : List Event} (h : Settled es) {e c : Event}
    (he : e ∈ es) (hc : c ∈ es) (hec : e.Before c)
    (hle : e.effective.floorMillis ≤ c.effective.floorMillis)
    (hround : c.type = .uncancel → c.effective.floorMillis ≤ e.effective.floorMillis →
      e.effective = c.effective) (v k v' k' : Nat) :
    ¬ (e.filed v k).isSupersededBy (c.filed v' k') = true := by
  intro hlost
  obtain ⟨-, hkind⟩ := Event.isSupersededBy_iff.1 hlost
  rcases hkind with ⟨-, -, hdate⟩ | ⟨hcancel, huncancel, hdate⟩
  · exact absurd hle (Int.not_le.2 hdate)
  · have hsame := hround huncancel hdate
    refine h.nothingLost e he c hc (Event.isSupersededBy_iff.2 ⟨hec.ordering_ne hsame, .inr ?_⟩)
    exact ⟨hcancel, huncancel, hsame ▸ Int.le_refl _⟩

/-- A settled history stays settled when it is filed in order, if its dates stay in order and no
cancellation comes to lie at an uncancellation behind it. -/
theorem Settled.filed {es fs : List Event} (h : Settled es) (hstays : StaysInOrder es)
    (hfiled : List.Forall₂ (fun f e => ∃ v k, f = e.filed v k) fs es)
    (horder : fs.Pairwise (fun a b => a.ordering < b.ordering))
    (hround : ∀ e ∈ es, ∀ c ∈ es, e.Before c → c.type = .uncancel →
      c.effective.floorMillis ≤ e.effective.floorMillis → e.effective = c.effective) :
    Settled fs := by
  have hbefore : fs.Pairwise Event.Before := by
    apply pairwise_of_forall₂ hfiled hstays horder
    rintro _ _ e c ⟨v, k, rfl⟩ ⟨v', k', rfl⟩ - - hle hlt
    exact .of_date_le hle hlt
  have hpair : fs.Pairwise (fun a b => ¬ a.isSupersededBy b = true) := by
    apply pairwise_of_forall₂ hfiled (h.inOrder.and hstays) horder
    rintro _ _ e c ⟨v, k, rfl⟩ ⟨v', k', rfl⟩ he hc ⟨hec, hle⟩ -
    exact h.not_isSupersededBy_filed he hc hec hle (hround e he c hc hec) v k v' k'
  refine ⟨hbefore, fun f hf g hg hlost => ?_⟩
  -- A superseding event is recorded later, so it stands behind the one that it supersedes.
  have hord := (Event.isSupersededBy_iff.1 hlost).1
  exact rel_of_pairwise horder hpair (fun _ _ => Nat.lt_asymm) hf hg hord hlost

/-- An event is not superseded after filing if none that stands behind it supersedes it then. -/
theorem exists_filed {es fs : List Event}
    (hfiled : List.Forall₂ (fun f e => ∃ v k, f = e.filed v k) fs es)
    (horder : fs.Pairwise (fun a b => a.ordering < b.ordering)) {P : Event → Prop}
    (hpair : es.Pairwise fun e c => P e →
      ∀ v k v' k', ¬ (e.filed v k).isSupersededBy (c.filed v' k') = true)
    {e : Event} (he : e ∈ es) (hP : P e) :
    ∃ v k, e.filed v k ∈ fs ∧ ∀ g ∈ fs, ¬ (e.filed v k).isSupersededBy g = true := by
  induction hfiled with
  | nil => cases he
  | @cons f x fs es hfx htail ih =>
    obtain ⟨hf, horder⟩ := List.pairwise_cons.1 horder
    obtain ⟨hx, hpair⟩ := List.pairwise_cons.1 hpair
    rcases List.mem_cons.1 he with rfl | he
    · obtain ⟨v, k, rfl⟩ := hfx
      refine ⟨v, k, List.mem_cons_self, fun g hg hlost => ?_⟩
      rcases List.mem_cons.1 hg with rfl | hg
      · exact Nat.lt_irrefl _ (Event.isSupersededBy_iff.1 hlost).1
      · obtain ⟨c, hc, v', k', rfl⟩ := exists_right_of_forall₂ htail hg
        exact hx c hc hP v k v' k' hlost
    · obtain ⟨v, k, hmem, hkept⟩ := ih horder hpair he
      refine ⟨v, k, .tail _ hmem, fun g hg hlost => ?_⟩
      rcases List.mem_cons.1 hg with rfl | hg
      · exact Nat.lt_asymm (hf _ hmem) (Event.isSupersededBy_iff.1 hlost).1
      · exact hkept g hg hlost

/-! ## The commit succeeds -/

namespace Planned

variable {bundle : Bundle} {benched works : List Rework} {cx : ReplayContext} {repair : Repair}
  {view : String} {plan : RepairPlan} {s t : Store} {b : BundleId} {r : Replay}

theorem nodup_marks
    (hp : Planned ⟨bundle, s.subscriptionsOf b, benched⟩ cx repair view r.works plan)
    (hs : s.Sound) (hids : Unused cx.ids (·.id) s.events) (hsweep : Sweep cx r []) :
    (s.events.map (fun e => (e.id, e.version)) ++
      (s.revised plan.commit.subscriptions).map fun x => (x.1.id, x.2)).Nodup := by
  refine List.nodup_append.2 ⟨hs.tidy.marks, ?_, ?_⟩
  · rw [hp.subscriptions]
    refine List.Nodup.of_map Prod.fst ?_
    have hnew : (((s.revised ((r.works.filter (·.isTouched)).map
        (Workbench.repaired ⟨bundle, s.subscriptionsOf b, benched⟩))).map
          fun x => (x.1.id, x.2)).map Prod.fst) =
        ((r.works.filter (·.isTouched)).flatMap (·.events)).map (·.id) := by
      simp [Store.revised, Workbench.repaired, List.flatMap_map, List.map_flatMap,
        Function.comp_def]
    rw [hnew]
    exact hsweep.distinct.sublist ((List.filter_sublist.flatMap _).map _)
  · intro m hm m' hm' hsame
    subst hsame
    obtain ⟨e, he, rfl⟩ := List.mem_map.1 hm
    obtain ⟨x, hx, hmark⟩ := List.mem_map.1 hm'
    obtain ⟨hid, hversion⟩ := Prod.ext_iff.1 hmark
    obtain ⟨w, hw, -, hf, hnext⟩ := hp.mem_revised.1 hx
    rcases List.mem_append.1 (show x.1 ∈ w.kept ++ w.added from hf) with hf | hf
    · obtain ⟨q, hq, hqid, hmem⟩ := hp.mem_shown_of_kept hw hf
      obtain ⟨hmem, hown, -⟩ := Store.mem_shown.1 hmem
      have := hs.versions e he q hq (hown.symm.trans (hs.owner e he x.1 hmem hid.symm).symm)
      simp only [hnext, ← hqid, Store.versionOf_eq (hs.tidy.record?_eq hq)] at hversion
      omega
    · obtain ⟨n, hn⟩ := hsweep.drawn w hw x.1 hf
      exact hids.ne e he n (hid.symm.trans hn)

end Planned

namespace Engine

variable {e : Engine} {context : CallContext} {now : Instant} {b : BundleId} {repair : Repair}
  {s : Store} {plan : RepairPlan}

theorem repair_commits (hs : s.Sound) (hattempts : e.settings.attempts ≠ 0)
    (hplan : e.planStored context now b repair s = .ok plan) :
    ∃ view t, e.repair context now b repair false s = (.ok view, t) := by
  obtain ⟨bundle, benched, works, hb, hp⟩ := planStored_eq_ok hplan
  have hload := hs.loaded b (e.supply_fresh s).events
  obtain ⟨r, rfl, hsweep⟩ := hp.sweep hload
  have hid : bundle.id = b := by simpa using List.find?_some hb
  have hview : s.viewOf plan.commit.bundle = .ok plan.commit.expectedView := by
    rw [hp.bundle, hp.expected, hp.upToDate]
    exact hid ▸ Store.viewId_eq_viewOf (hid.symm ▸ hb)
  have hrecords : ∀ sub ∈ plan.commit.subscriptions,
      ∃ q ∈ s.records, q.id = sub.id ∧ q.bundle = plan.commit.bundle := by
    intro sub hsub
    obtain ⟨w, hw, -, rfl⟩ := hp.mem_commit.1 hsub
    obtain ⟨q, hq, hqb, hvisible⟩ := hp.exists_record hw
    exact ⟨q, hq, congrArg (·.id) hvisible, hqb.trans (hid.symm.trans hp.bundle.symm)⟩
  obtain ⟨record, t, hcommit⟩ := Store.commitRepair_ok (s := s.held (e.lockOf b 0))
    (hs.tidy.withLocks _) hview (hp.commit_ids hload) hrecords (hp.repaired_own hsweep)
    (hp.nodup_marks hs (e.supply_fresh s).events hsweep) now
  have hrows := (Store.commitRepair_rows (hs.tidy.withLocks _) (hp.commit_ids hload) hcommit).1
  obtain ⟨x, hx, hxid⟩ := hrows.bundle ⟨bundle, List.mem_of_find?_eq_some hb, hid⟩
  have htimeline : ∃ view, timeline t b = .ok view := by
    unfold timeline Engine.bundle
    cases hfind : t.bundle? b with
    | none => exact absurd (List.find?_eq_none.1 hfind x hx) (by simp [hxid])
    | some y => exact ⟨_, rfl⟩
  obtain ⟨view, hview⟩ := htimeline
  have hheld : e.planStored context now b repair (s.held (e.lockOf b 0)) = .ok plan := hplan
  refine ⟨view, t.unlock b e.owner, ?_⟩
  rw [Engine.repair, locked_eq hs.unlocked hattempts, hheld]
  simp only [bind, Except.bind, Bool.false_eq_true, if_false, hcommit, Except.mapError, hview]
  rfl

end Engine

/-! ## What is read back -/

/-- What a reader of a timeline sees of an event, to the millisecond. -/
def Event.reading (e : Event) : EventType × Payload × Instant :=
  (e.type, e.payload, e.effective.floorMillis)

/-- The timeline of one subscription in a view. -/
def TimelineView.of? (v : TimelineView) (i : SubscriptionId) : Option SubscriptionTimeline :=
  v.subscriptions.find? (·.subscription == i)

/-- What an event says and for when. -/
def Event.timed (e : Event) : TimedPayload := ⟨e.effective, e.payload⟩

theorem Event.reading_filed (e : Event) (v k : Nat) : (e.filed v k).reading = e.reading := by
  simp [reading]

theorem sortBy_timeline_of_settled {es : List Event} (h : Settled es) :
    sortBy SubscriptionTimeline.eventLe es = es :=
  sortBy_eventLe_of_before h.inOrder

theorem Laid.visible_events {s : Store} (hs : s.Tidy) {r : SubscriptionRecord} {n v : Nat}
    {es : List Event} (h : Laid n (s.shown r) (es.map (·, v))) (hstays : StaysInOrder es) :
    (s.visible r).events = s.shown r := by
  refine sortBy_of_pairwise (pairwise_of_forall₂ h.forall₂ hstays (Store.shown_orderings hs r) ?_)
  rintro _ _ a b ⟨k, -, rfl⟩ ⟨k', -, rfl⟩ - - hle hlt
  simp only [Event.filed_ordering] at hlt
  simp only [Store.eventLe, Event.filed_effective, Event.filed_ordering, Bool.or_eq_true,
    Bool.and_eq_true, decide_eq_true_eq, beq_iff_eq, Instant.lt_def, Instant.le_def,
    Instant.ext_iff] at hle ⊢
  exact (Int.lt_or_eq_of_le hle).imp_right fun heq => ⟨heq, decide_eq_true (Nat.le_of_lt hlt)⟩

theorem Laid.timed_visible {s : Store} (hs : s.Tidy) {r : SubscriptionRecord} {n v : Nat}
    {es : List Event} (h : Laid n (s.shown r) (es.map (·, v))) (hstays : StaysInOrder es) :
    (s.visible r).events.map (·.timed) = es.map fun e => ⟨e.effective.floorMillis, e.payload⟩ := by
  rw [h.visible_events hs hstays]
  generalize s.shown r = fs at h
  have hall := h.forall₂
  clear h
  induction hall with
  | nil => rfl
  | @cons f e fs es hfe _ ih =>
    obtain ⟨k, -, rfl⟩ := hfe
    rw [List.map_cons, List.map_cons, ih (List.pairwise_cons.1 hstays).2]
    rfl

namespace Planned

variable {bundle : Bundle} {benched : List Rework} {cx : ReplayContext} {repair : Repair}
  {view : String} {plan : RepairPlan} {s t : Store} {b : BundleId} {r : Replay} {w : Rework}
  {q : SubscriptionRecord}

/-- Kept events lie in the store, so their dates are whole milliseconds. -/
theorem kept_whole (hp : Planned ⟨bundle, s.subscriptionsOf b, benched⟩ cx repair view r.works plan)
    (hs : s.Tidy) (hw : w ∈ r.works) {e : Event} (he : e ∈ w.kept) :
    e.effective.floorMillis = e.effective := by
  obtain ⟨q, -, -, hmem⟩ := hp.mem_shown_of_kept hw he
  exact hs.eventDates e (Store.mem_shown.1 hmem).1

theorem exists_revised
    (hp : Planned ⟨bundle, s.subscriptionsOf b, benched⟩ cx repair view r.works plan)
    (hs : s.Sound) (hids : Unused cx.ids (·.id) s.events) (hsweep : Sweep cx r [])
    (hrows : Rows s t (Store.reviseAll plan.commit.subscriptions) []
      (s.revised plan.commit.subscriptions))
    (hw : w ∈ r.works) (htouched : w.isTouched = true) :
    ∃ q ∈ s.records, s.visible q = w.subscription ∧
      t.subscription? w.id = some (t.visible (Store.reviseAll plan.commit.subscriptions q)) ∧
      Laid s.events.length (t.shown (Store.reviseAll plan.commit.subscriptions q))
        (w.events.map (·, q.version + 1)) := by
  have hload : Loaded (s.subscriptionsOf b) cx.ids := hs.loaded b hids
  obtain ⟨q, hq, -, hvisible⟩ := hp.exists_record hw
  have hid : q.id = w.id := congrArg (·.id) hvisible
  refine ⟨q, hq, hvisible, ?_, hrows.shown_revised hs (hp.commit_ids hload) (hp.repaired_own hsweep)
    (hp.repaired_mem hw htouched) hq hid⟩
  rw [← hid]
  exact hrows.subscription?_visible (hrows.tidy hs.tidy) hq

/-- An uncancellation is kept, and so is what stands before it. Rounding moves neither. -/
theorem same_of_uncancel
    (hp : Planned ⟨bundle, s.subscriptionsOf b, benched⟩ cx repair view r.works plan)
    (hs : s.Tidy) (hsweep : Sweep cx r []) (hw : w ∈ r.works) {e c : Event} (he : e ∈ w.events)
    (hc : c ∈ w.events) (hec : e.Before c) (huncancel : c.type = .uncancel)
    (hround : c.effective.floorMillis ≤ e.effective.floorMillis) : e.effective = c.effective := by
  have hckept : c ∈ w.kept := by
    rcases List.mem_append.1 (show c ∈ w.kept ++ w.added from hc) with hc | hc
    · exact hc
    · exact absurd huncancel (hsweep.uncancels w hw c hc)
  have hekept : e ∈ w.kept := by
    rcases List.mem_append.1 (show e ∈ w.kept ++ w.added from he) with he | he
    · exact he
    · have horder : (w.kept ++ w.added).Pairwise Event.Before := (hsweep.settled w hw).inOrder
      exact ((List.pairwise_append.1 horder).2.2 c hckept e he).asymm hec |>.elim
  rw [hp.kept_whole hs hw hckept, hp.kept_whole hs hw hekept] at hround
  have hle := hec.date_le
  simp only [Instant.le_def] at hround hle
  ext
  omega

/-- After the commit a repaired subscription shows the planned events, filed in their order. -/
theorem effectiveEvents_revised
    (hp : Planned ⟨bundle, s.subscriptionsOf b, benched⟩ cx repair view r.works plan)
    (hs : s.Sound) (hids : Unused cx.ids (·.id) s.events) (hsweep : Sweep cx r [])
    (hrows : Rows s t (Store.reviseAll plan.commit.subscriptions) []
      (s.revised plan.commit.subscriptions))
    (hw : w ∈ r.works) (htouched : w.isTouched = true) (hstays : StaysInOrder w.events)
    (hq : q ∈ s.records) (hid : q.id = w.id) :
    List.Forall₂ (fun f e => ∃ k, f = e.filed (q.version + 1) k)
      (effectiveEvents (t.visible (Store.reviseAll plan.commit.subscriptions q)).events)
      w.events := by
  have hload : Loaded (s.subscriptionsOf b) cx.ids := hs.loaded b hids
  have htidy := hrows.tidy hs.tidy
  have hlaid := (hrows.shown_revised hs (hp.commit_ids hload) (hp.repaired_own hsweep)
    (hp.repaired_mem hw htouched) hq hid).forall₂
  have hsettled := (hsweep.settled w hw).filed hstays
    (hlaid.imp fun f e ⟨k, _, hf⟩ => ⟨q.version + 1, k, hf⟩) (Store.shown_orderings htidy _)
    fun e he c hc => hp.same_of_uncancel hs.tidy hsweep hw he hc
  rw [Store.effectiveEvents_visible htidy, hsettled.effectiveEvents_eq]
  exact hlaid.imp fun f e ⟨k, _, hf⟩ => ⟨k, hf⟩

/-- In any case it shows the events that are kept. -/
theorem exists_kept_filed
    (hp : Planned ⟨bundle, s.subscriptionsOf b, benched⟩ cx repair view r.works plan)
    (hs : s.Sound) (hids : Unused cx.ids (·.id) s.events) (hsweep : Sweep cx r [])
    (hrows : Rows s t (Store.reviseAll plan.commit.subscriptions) []
      (s.revised plan.commit.subscriptions))
    (hw : w ∈ r.works) (htouched : w.isTouched = true) (hq : q ∈ s.records) (hid : q.id = w.id)
    {e : Event} (he : e ∈ w.kept) : ∃ v k, e.filed v k ∈
      effectiveEvents (t.visible (Store.reviseAll plan.commit.subscriptions q)).events := by
  have hload : Loaded (s.subscriptionsOf b) cx.ids := hs.loaded b hids
  have htidy := hrows.tidy hs.tidy
  have hlaid := (hrows.shown_revised hs (hp.commit_ids hload) (hp.repaired_own hsweep)
    (hp.repaired_mem hw htouched) hq hid).forall₂
  have hsettled := hsweep.settled w hw
  simp only [Store.effectiveEvents_visible htidy,
    mem_effectiveEvents_iff (Store.shown_ids htidy _)]
  refine exists_filed (P := (· ∈ w.kept))
    (hlaid.imp fun f e ⟨k, _, hf⟩ => ⟨_, k, hf⟩) (Store.shown_orderings htidy _) ?_
    (List.mem_append_left _ he) he
  refine hsettled.inOrder.imp_of_mem fun {x c} hx hc hxc hkept => ?_
  have hdown := Instant.roundsDown_of_floorMillis (hp.kept_whole hs.tidy hw hkept)
  exact hsettled.not_isSupersededBy_filed hx hc hxc (Instant.floorMillis_mono hdown hxc.date_le)
    (hp.same_of_uncancel hs.tidy hsweep hw hx hc hxc)

theorem untouched (hp : Planned ⟨bundle, s.subscriptionsOf b, benched⟩ cx repair view r.works plan)
    (hsweep : Sweep cx r [])
    (hrows : Rows s t (Store.reviseAll plan.commit.subscriptions) []
      (s.revised plan.commit.subscriptions))
    (hq : ∀ w ∈ r.works, w.id = q.id → w.isTouched = false) :
    Store.reviseAll plan.commit.subscriptions q = q ∧ t.visible q = s.visible q := by
  have hforeign := hp.commit_foreign hq
  exact ⟨Store.reviseAll_of_forall_ne hforeign,
    Store.visible_congr (hrows.shown_unrevised (hp.repaired_own hsweep) hforeign)⟩

end Planned

theorem Workbench.timelineOf_touched {works : List Rework} (hids : (works.map (·.id)).Nodup)
    {w : Rework} (hw : w ∈ works) (htouched : w.isTouched = true) {sub : Subscription}
    (hid : sub.id = w.id) :
    (timelineOf works sub).existing = w.kept ∧ (timelineOf works sub).new = w.added := by
  have hfind : (works.find? (·.id == sub.id)).filter (·.isTouched) = some w := by
    rw [hid, find?_of_nodup hids hw]
    simp [htouched]
  simp [timelineOf, hfind]

theorem Workbench.timelineOf_untouched {works : List Rework} {sub : Subscription}
    (h : ∀ w ∈ works, w.id = sub.id → w.isTouched = false) :
    timelineOf works sub = .current sub := by
  have hfind : (works.find? (·.id == sub.id)).filter (·.isTouched) = none := by
    cases hf : works.find? (·.id == sub.id) with
    | none => rfl
    | some w =>
      have hid : w.id = sub.id := by simpa using List.find?_some hf
      simp [h w (List.mem_of_find?_eq_some hf) hid]
  simp [timelineOf, hfind]

theorem Workbench.timelineOf_subscription (works : List Rework) (sub : Subscription) :
    (timelineOf works sub).subscription = sub.id := by
  unfold timelineOf
  split <;> rfl

/-- In a view of subscriptions each is found that is the first under its identifier. -/
theorem TimelineView.of?_eq_of_find? {subs : List Subscription}
    {f : Subscription → SubscriptionTimeline} (hf : ∀ sub, (f sub).subscription = sub.id)
    {v : TimelineView} (hv : v.subscriptions = subs.map f) {i : SubscriptionId}
    {sub : Subscription} (hsub : subs.find? (·.id == i) = some sub) : v.of? i = some (f sub) := by
  have hkey : ((·.subscription == i) ∘ f) = (·.id == i) := funext fun s => congrArg (· == i) (hf s)
  rw [of?, hv, List.find?_map, hkey, hsub]
  rfl

theorem TimelineView.of?_eq {subs : List Subscription} (hids : (subs.map (·.id)).Nodup)
    {f : Subscription → SubscriptionTimeline} (hf : ∀ sub, (f sub).subscription = sub.id)
    {v : TimelineView} (hv : v.subscriptions = subs.map f) {sub : Subscription}
    (hsub : sub ∈ subs) : v.of? sub.id = some (f sub) :=
  of?_eq_of_find? hf hv (find?_of_nodup hids hsub)

theorem Sweep.timelineOf_touched {cx : ReplayContext} {r : Replay} (hsweep : Sweep cx r [])
    {w : Rework} (hw : w ∈ r.works) (htouched : w.isTouched = true) {sub : Subscription}
    (hid : sub.id = w.id) : (Workbench.timelineOf r.works sub).existing = w.kept ∧
      (Workbench.timelineOf r.works sub).events = w.events := by
  obtain ⟨hexisting, hnew⟩ := Workbench.timelineOf_touched hsweep.ids hw htouched hid
  rw [SubscriptionTimeline.events, hexisting, hnew]
  exact ⟨rfl, sortBy_timeline_of_settled (hsweep.settled w hw)⟩

/-- A planned timeline shows what its rework has laid down, or else the subscription as it is. -/
theorem Sweep.timelineOf_cases {cx : ReplayContext} {r : Replay} {s : Store}
    (hsweep : Sweep cx r []) (hs : s.Tidy) (q : SubscriptionRecord) :
    (∃ w ∈ r.works, w.isTouched = true ∧ q.id = w.id ∧
      (Workbench.timelineOf r.works (s.visible q)).existing = w.kept ∧
      (Workbench.timelineOf r.works (s.visible q)).events = w.events) ∨
    (∀ w ∈ r.works, w.id = q.id → w.isTouched = false) ∧
      (Workbench.timelineOf r.works (s.visible q)).existing = (s.visible q).effectiveEvents ∧
      (Workbench.timelineOf r.works (s.visible q)).events = (s.visible q).effectiveEvents := by
  by_cases htouched : ∃ w ∈ r.works, w.id = q.id ∧ w.isTouched = true
  · obtain ⟨w, hw, hid, htouched⟩ := htouched
    exact .inl ⟨w, hw, htouched, hid.symm, hsweep.timelineOf_touched hw htouched hid.symm⟩
  · have huntouched : ∀ w ∈ r.works, w.id = q.id → w.isTouched = false := by
      intro w hw hid
      simpa using fun h => htouched ⟨w, hw, hid, h⟩
    rw [Workbench.timelineOf_untouched huntouched]
    refine .inr ⟨huntouched, rfl, ?_⟩
    rw [SubscriptionTimeline.events, SubscriptionTimeline.current, List.append_nil]
    exact sortBy_timeline_of_settled (.ofEffective (Store.visible_orderings hs q))

/-- Events that read as those of a subscription do stay in order. -/
theorem staysInOrder_of_readings {s : Store} (hs : s.Tidy) (q : SubscriptionRecord)
    {es : List Event} (h : List.Forall₂ (fun f e => f.reading = e.reading)
      (effectiveEvents (s.visible q).events) es) : StaysInOrder es := by
  have hsettled : Settled (effectiveEvents (s.visible q).events) :=
    .ofEffective (Store.visible_orderings hs q)
  apply pairwise_of_forall₂ h.flip (hsettled.inOrder.imp Event.Before.date_le)
    (List.pairwise_of_forall fun _ _ => trivial)
  intro e c f g hfe hgc hf hg hle _
  have hdate := congrArg (·.2.2) hfe
  have hdate' := congrArg (·.2.2) hgc
  simp only [Event.reading, Store.visible_dates hs q f (mem_effectiveEvents.1 hf).1,
    Store.visible_dates hs q g (mem_effectiveEvents.1 hg).1] at hdate hdate'
  rwa [← hdate, ← hdate']

namespace Planned

variable {bundle : Bundle} {benched : List Rework} {cx : ReplayContext} {repair : Repair}
  {view : String} {plan : RepairPlan} {s t : Store} {b : BundleId} {r : Replay}
  {q : SubscriptionRecord}

/-- If what the repair lays down rounds down, the planned timelines stay in order. -/
theorem view_staysInOrder
    (hp : Planned ⟨bundle, s.subscriptionsOf b, benched⟩ cx repair view r.works plan)
    (hsweep : Sweep cx r []) (hs : s.Tidy)
    (hdown : ∀ w ∈ r.works, ∀ e ∈ w.events, e.effective.RoundsDown) :
    ∀ planned ∈ plan.view.subscriptions, StaysInOrder planned.events := by
  intro planned hmem
  rw [hp.viewOf] at hmem
  obtain ⟨sub, hsub, rfl⟩ := List.mem_map.1 hmem
  obtain ⟨q, -, -, rfl⟩ := Store.mem_subscriptionsOf.1 hsub
  rcases hsweep.timelineOf_cases hs q with ⟨w, hw, -, -, -, hevents⟩ | ⟨-, -, hevents⟩
  · rw [hevents]
    exact (hsweep.settled w hw).staysInOrder (hdown w hw)
  · rw [hevents]
    exact staysInOrder_of_readings hs q (List.forall₂_same.2 fun _ _ => rfl)

variable (hp : Planned ⟨bundle, s.subscriptionsOf b, benched⟩ cx repair view r.works plan)
  (hs : s.Sound) (hids : Unused cx.ids (·.id) s.events) (hsweep : Sweep cx r [])
  (hrows : Rows s t (Store.reviseAll plan.commit.subscriptions) []
    (s.revised plan.commit.subscriptions)) (hq : q ∈ s.records)

include hp hs hids hsweep hrows hq

/-- A planned timeline that stays in order is the one read back after the commit: one for one the
same type, payload and date, the kept events under their identifiers. -/
theorem timeline_agrees
    (hstays : StaysInOrder (Workbench.timelineOf r.works (s.visible q)).events) :
    List.Forall₂ (fun f e => f.reading = e.reading ∧
        (e ∈ (Workbench.timelineOf r.works (s.visible q)).existing → f.id = e.id))
      (effectiveEvents (t.visible (Store.reviseAll plan.commit.subscriptions q)).events)
      (Workbench.timelineOf r.works (s.visible q)).events := by
  rcases hsweep.timelineOf_cases hs.tidy q with
    ⟨w, hw, htouched, hid, -, hevents⟩ | ⟨huntouched, -, hevents⟩
  · rw [hevents] at hstays ⊢
    apply (hp.effectiveEvents_revised hs hids hsweep hrows hw htouched hstays hq hid).imp
    rintro f x ⟨k, rfl⟩
    exact ⟨x.reading_filed _ _, fun _ => rfl⟩
  · obtain ⟨hsame, hvisible⟩ := hp.untouched hsweep hrows huntouched
    rw [hsame, hvisible, hevents]
    exact List.forall₂_same.2 fun x _ => ⟨rfl, fun _ => rfl⟩

/-- The events that a planned timeline keeps are read back in any case. -/
theorem timeline_keeps :
    ∀ x ∈ (Workbench.timelineOf r.works (s.visible q)).existing,
      ∃ f ∈ effectiveEvents (t.visible (Store.reviseAll plan.commit.subscriptions q)).events,
        f.id = x.id ∧ f.reading = x.reading := by
  intro x hx
  rcases hsweep.timelineOf_cases hs.tidy q with
    ⟨w, hw, htouched, hid, hexisting, -⟩ | ⟨huntouched, hexisting, -⟩
  · obtain ⟨v, k, hmem⟩ :=
      hp.exists_kept_filed hs hids hsweep hrows hw htouched hq hid (hexisting ▸ hx)
    exact ⟨_, hmem, rfl, x.reading_filed v k⟩
  · obtain ⟨hsame, hvisible⟩ := hp.untouched hsweep hrows huntouched
    rw [hexisting] at hx
    rw [hsame, hvisible]
    exact ⟨x, hx, rfl, rfl⟩

end Planned

/-! ## Dry run and commit -/

/-- **A dry run agrees with the commit.** If the dry run of a repair succeeds, it leaves the store
as it is, and the repair can be committed; and where no statement fails and all dates read back, it
is. What something was done to moves on by one version, and everything else stays as it was.

Each subscription of the bundle then shows the kept events of the dry run, under their identifiers.
It shows all that the dry run merged, one for one with the same type, payload and date in
milliseconds, exactly if the dates stay in order when they are rounded. They do unless something is
proposed in a leap second. -/
theorem dryRun_agrees {s t : Store} {e : Engine} {context : CallContext} {now : Instant}
    {b : BundleId} {repair : Repair} {view : TimelineView} (hs : s.Reachable)
    (h : e.repair context now b repair true s = (.ok view, t)) :
    t = s ∧ ∃ committed u, e.repair context now b repair false s = (.ok committed, u) ∧
      Engine.timeline u b = .ok committed ∧
      (readsBack s = true → readsBack u = true →
        Step.staged ⟨e, context, now, .repair b repair false⟩ {} s = (.ok (), u)) ∧
      (∀ sub ∈ s.subscriptionsOf b, ∃ planned stored,
        view.of? sub.id = some planned ∧ committed.of? sub.id = some stored ∧
        (∀ x ∈ planned.existing, ∃ f ∈ stored.existing, f.id = x.id ∧ f.reading = x.reading) ∧
        (List.Forall₂ (fun f x => f.reading = x.reading ∧ (x ∈ planned.existing → f.id = x.id))
          stored.existing planned.events ↔ StaysInOrder planned.events)) ∧
      ((∀ x ∈ repair.edits, ∀ p ∈ x.proposals, p.effective.isLeap = false) →
        ∀ planned ∈ view.subscriptions, StaysInOrder planned.events) ∧
      ∀ i sub, s.subscription? i = some sub →
        ((∃ x ∈ repair.edits, x.subscription = i ∧ x.isNoop = false) →
          ∃ sub', u.subscription? i = some sub' ∧ sub'.version = sub.version + 1) ∧
        ((∀ x ∈ repair.edits, x.subscription = i → x.isNoop = true) →
          u.subscription? i = some sub) := by
  have hsound := hs.sound
  obtain ⟨hattempts, plan, hplan, hdry, -⟩ := Engine.repair_eq_ok hsound h
  obtain ⟨rfl, rfl⟩ := hdry rfl
  obtain ⟨committed, u, hcommit⟩ := Engine.repair_commits hsound hattempts hplan
  obtain ⟨-, plan', hplan', -, hwritten⟩ := Engine.repair_eq_ok hsound hcommit
  obtain rfl : plan = plan' := Except.ok.inj (hplan.symm.trans hplan')
  obtain ⟨htimeline, hrows⟩ := hwritten rfl
  obtain ⟨bundle, benched, works, hb, hp⟩ := Engine.planStored_eq_ok hplan
  have hunused := (e.supply_fresh t).events
  have hload := hsound.loaded b hunused
  obtain ⟨r, rfl, hsweep⟩ := hp.sweep hload
  have husound : u.Sound := (Effect.ofRepair hrows hsound hp hunused).sound hsound
  have hrecord {q : SubscriptionRecord} (hq : q ∈ t.records) :
      Store.reviseAll plan.commit.subscriptions q ∈ u.records := by
    rw [hrows.records]
    exact List.mem_append_left _ (List.mem_map_of_mem hq)
  have hread {q : SubscriptionRecord} (hq : q ∈ t.records) : u.subscription? q.id =
      some (u.visible (Store.reviseAll plan.commit.subscriptions q)) :=
    (Store.subscription?_eq_some husound.tidy).2 ⟨_, hrecord hq, (hrows.keeps q).1, rfl⟩
  refine ⟨rfl, committed, u, hcommit, htimeline, fun hback hback' => ?_, fun sub hsub => ?_,
    fun hleap => ?_, fun i sub hsub => ?_⟩
  · have hrun : Step.run ⟨e, context, now, .repair b repair false⟩ t = (.ok (), u) := by
      simp only [Step.run, hcommit, outcome]
      rfl
    have haccounted := Step.staged_accounted ⟨e, context, now, .repair b repair false⟩ t {}
      (by simp [hsound.unlocked])
    rw [hrun] at haccounted
    exact haccounted.toAllOrNothing.faultless rfl hback hback'
  · obtain ⟨q, hq, hqb, rfl⟩ := Store.mem_subscriptionsOf.1 hsub
    have hplanned : plan.view.of? q.id = some (Workbench.timelineOf r.works (t.visible q)) :=
      TimelineView.of?_eq hload.ids (Workbench.timelineOf_subscription r.works)
        (by rw [hp.viewOf]) hsub
    have hstored : committed.of? q.id = some (SubscriptionTimeline.current
        (u.visible (Store.reviseAll plan.commit.subscriptions q))) := by
      obtain ⟨bundle', -, rfl⟩ := map_eq_ok.1 htimeline
      have hmem : u.visible (Store.reviseAll plan.commit.subscriptions q) ∈ u.subscriptionsOf b :=
        Store.mem_subscriptionsOf.2 ⟨_, hrecord hq, (hrows.keeps q).2.1.trans hqb, rfl⟩
      have hfound := TimelineView.of?_eq (husound.tidy.nodup_subscriptionsOf b) (fun _ => rfl)
        (v := .ofBundle bundle' (u.subscriptionsOf b)) rfl hmem
      rwa [Store.visible_id, (hrows.keeps q).1] at hfound
    refine ⟨_, _, hplanned, hstored, hp.timeline_keeps hsound hunused hsweep hrows hq,
      fun hagree => ?_, hp.timeline_agrees hsound hunused hsweep hrows hq⟩
    exact staysInOrder_of_readings husound.tidy _ (hagree.imp fun _ _ hsame => hsame.1)
  · exact hp.view_staysInOrder hsweep hsound.tidy
      (hp.roundsDown hsound.tidy (List.mem_of_find?_eq_some hb) rfl hleap)
  · obtain ⟨q, hq, rfl, rfl⟩ := (Store.subscription?_eq_some hsound.tidy).1 hsub
    constructor
    · rintro ⟨x, hx, hxid, hne⟩
      obtain ⟨w, hw, hwid⟩ := hp.exists_work hload hx
      have htouched := (hp.isTouched_iff hload hw).2 ⟨x, hx, hwid.symm, hne⟩
      exact ⟨_, hread hq, hp.touched_version hload hw htouched (hxid.symm.trans hwid.symm)⟩
    · intro hnoop
      have huntouched : ∀ w ∈ r.works, w.id = q.id → w.isTouched = false := by
        intro w hw hid
        apply Bool.eq_false_iff.2
        intro htouched
        obtain ⟨x, hx, hxid, hne⟩ := (hp.isTouched_iff hload hw).1 htouched
        rw [hnoop x hx (hxid.trans hid)] at hne
        cases hne
      obtain ⟨hsame, hvisible⟩ := hp.untouched hsweep hrows huntouched
      rw [hread hq, hsame, hvisible]

/-- The repair of a trial that was tried out is committed, and the subscription moves on. -/
theorem dryRun_agrees_sample :
    ∃ committed u, Sample.engine.repair Sample.caller (Sample.day 1) ⟨1⟩ Sample.cutTrial false
        (Sample.after Sample.trial) = (.ok committed, u) ∧
      ∃ sub, u.subscription? ⟨1⟩ = some sub ∧ sub.version = 2 := by
  have hok : (Sample.engine.repair Sample.caller (Sample.day 1) ⟨1⟩ Sample.cutTrial true
      (Sample.after Sample.trial)).1.toOption.isSome = true := by decide +kernel
  have hsub : ((Sample.after Sample.trial).subscription? ⟨1⟩).map (·.version) = some 1 := by
    decide +kernel
  obtain ⟨sub, hsub, hversion⟩ := Option.map_eq_some_iff.1 hsub
  cases hres : Sample.engine.repair Sample.caller (Sample.day 1) ⟨1⟩ Sample.cutTrial true
      (Sample.after Sample.trial) with
  | mk res t =>
    cases res with
    | error err =>
      rw [hres] at hok
      cases hok
    | ok view =>
      obtain ⟨-, committed, u, hcommit, -, -, -, -, hall⟩ :=
        dryRun_agrees (Sample.reachable_after Sample.trial) hres
      obtain ⟨sub', hsub', hmoved⟩ := (hall ⟨1⟩ sub hsub).1 (by decide)
      exact ⟨committed, u, hcommit, sub', hsub', by rw [hmoved, hversion]⟩

namespace Sample

/-- A repair of the sample subscription that changes its plan in the leap second at the end of 2016,
and cancels it in the first moment of 2017. -/
def acrossLeap : Repair :=
  let leap := (Instant.ofTick? 2966457599500000000).getD .last
  let newYear := (Instant.ofMillis? 1483228800000).getD .last
  ⟨"2-0", [⟨⟨1⟩, [], [⟨.change, leap, some ⟨"assault-rifle", .monthly, "DEFAULT"⟩, none⟩,
    ⟨.cancel, newYear, none, none⟩]⟩]⟩

/-- Its dry run shows the change before the cancellation. It is committed, and everything reads
back, but now the change is dated half a second behind the cancellation. -/
theorem dryRun_disagrees_across_leap :
    (after trial).Reachable ∧ ∃ view committed u planned stored,
      engine.repair caller (day 1) ⟨1⟩ acrossLeap true (after trial) = (.ok view, after trial) ∧
      engine.repair caller (day 1) ⟨1⟩ acrossLeap false (after trial) = (.ok committed, u) ∧
      Step.staged (step 1 (.repair ⟨1⟩ acrossLeap false)) {} (after trial) = (.ok (), u) ∧
      view.of? ⟨1⟩ = some planned ∧ committed.of? ⟨1⟩ = some stored ∧
      planned.events.map (·.type) = [.create, .phase, .change, .cancel] ∧
      stored.existing.map (·.type) = [.create, .phase, .cancel, .change] ∧
      stored.existing.map (·.reading) ≠ planned.events.map (·.reading) := by
  have hplanned : (((engine.repair caller (day 1) ⟨1⟩ acrossLeap true (after trial)).1.toOption.bind
      (·.of? ⟨1⟩)).map fun tl => tl.events.map (·.type)) =
        some [.create, .phase, .change, .cancel] := by
    decide +kernel
  have hstored : (((engine.repair caller (day 1) ⟨1⟩ acrossLeap false
      (after trial)).1.toOption.bind (·.of? ⟨1⟩)).map fun tl => tl.existing.map (·.type)) =
        some [.create, .phase, .cancel, .change] := by
    decide +kernel
  have hreachable := reachable_after trial
  have hsound := hreachable.sound
  cases hdry : engine.repair caller (day 1) ⟨1⟩ acrossLeap true (after trial) with
  | mk res t =>
    cases hcommit : engine.repair caller (day 1) ⟨1⟩ acrossLeap false (after trial) with
    | mk res' u =>
      rw [hdry] at hplanned
      rw [hcommit] at hstored
      obtain ⟨planned, hplanned, hshown⟩ := Option.map_eq_some_iff.1 hplanned
      obtain ⟨view, hview, hplanned⟩ := Option.bind_eq_some_iff.1 hplanned
      obtain ⟨stored, hstored, hread⟩ := Option.map_eq_some_iff.1 hstored
      obtain ⟨committed, hcommitted, hstored⟩ := Option.bind_eq_some_iff.1 hstored
      obtain rfl : res = .ok view := toOption_eq_some.1 hview
      obtain rfl : res' = .ok committed := toOption_eq_some.1 hcommitted
      obtain ⟨-, plan, -, hplan, -⟩ := Engine.repair_eq_ok hsound hdry
      obtain ⟨rfl, rfl⟩ := hplan rfl
      have hstaged : (Step.staged (step 1 (.repair ⟨1⟩ acrossLeap false)) {} (after trial)).1 =
          .ok () := by decide +kernel
      have hdone := (Step.staged_accounted (step 1 (.repair ⟨1⟩ acrossLeap false)) (after trial) {}
        (by simp [hsound.unlocked])).toAllOrNothing.done hstaged
      have hrun : (step 1 (.repair ⟨1⟩ acrossLeap false)).run (after trial) = (.ok (), u) := by
        simp only [step, Step.run, hcommit, outcome]
        rfl
      refine ⟨hreachable, _, committed, u, planned, stored, rfl, rfl, hdone.trans hrun, hplanned,
        hstored, hshown, hread, fun hsame => ?_⟩
      have htypes := congrArg (List.map (·.1)) hsame
      simp only [List.map_map, Function.comp_def, Event.reading] at htypes
      rw [hshown, hread] at htypes
      simp at htypes

end Sample

end Tenure
