import Tenure.Proofs.Soundness
import Tenure.Proofs.Failures

/-!
# Versions

What is stored stays. Along a run the events of a store are a prefix of those of any later one
(`Continues`), what is added to a subscription is written at the version it then has, and the
version counts the repairs that were committed for it (`Store.Counted`).

A repair writes what it keeps under the old identifiers at the next version. So an identifier gets
from one version to the next only through a repair that keeps it, and one that a repair deletes is
seen of no later version again (`Gone`).

The main statement is `history_is_frozen`.
-/

namespace Tenure

/-! ## What is written -/

theorem Store.filter_eventsAt (s : Store) (i : SubscriptionId) (v : Nat) (p : Event → Bool) :
    (s.eventsAt i v).filter p =
      sortBy eventLe
        ((s.events.filter fun e => e.subscription == i && e.version == v).filter p) := by
  refine filter_sortBy (fun a b => ?_) (fun a b c hab hbc => ?_) p _
  · simp only [eventLe, Bool.or_eq_true, Bool.and_eq_true, decide_eq_true_eq, beq_iff_eq,
      Instant.lt_def, Instant.ext_iff]
    omega
  · simp only [eventLe, Bool.or_eq_true, Bool.and_eq_true, decide_eq_true_eq, beq_iff_eq,
      Instant.lt_def, Instant.ext_iff] at *
    omega

theorem Store.mem_eventsAt {s : Store} {i : SubscriptionId} {v : Nat} {e : Event} :
    e ∈ s.eventsAt i v ↔ e ∈ s.events ∧ e.subscription = i ∧ e.version = v := by
  simp [eventsAt]

/-- The store `t` goes on from `s`: it has new events behind the old ones, at the versions that
their subscriptions have by then. -/
structure Continues (s t : Store) : Prop where
  events : ∃ added, t.events = s.events ++ added ∧ ∀ f ∈ added, ∀ r ∈ s.records,
    r.id = f.subscription → r.version ≤ f.version
  versions : ∀ r ∈ s.records, ∃ q ∈ t.records, q.id = r.id ∧ r.version ≤ q.version

namespace Continues

variable {s t u : Store}

theorem refl (s : Store) : Continues s s :=
  ⟨⟨[], by simp, by simp⟩, fun r hr => ⟨r, hr, rfl, Nat.le_refl _⟩⟩

theorem trans (h : Continues s t) (h' : Continues t u) : Continues s u where
  events := by
    obtain ⟨added, hadded, hlate⟩ := h.events
    obtain ⟨added', hadded', hlate'⟩ := h'.events
    refine ⟨added ++ added', by rw [hadded', hadded, List.append_assoc], fun f hf r hr hid => ?_⟩
    rcases List.mem_append.1 hf with hf | hf
    · exact hlate f hf r hr hid
    · obtain ⟨q, hq, hqid, hle⟩ := h.versions r hr
      exact Nat.le_trans hle (hlate' f hf q hq (hqid.trans hid))
  versions := by
    intro r hr
    obtain ⟨q, hq, hqid, hle⟩ := h.versions r hr
    obtain ⟨x, hx, hxid, hle'⟩ := h'.versions q hq
    exact ⟨x, hx, hxid.trans hqid, Nat.le_trans hle hle'⟩

theorem eventsAt_eq (h : Continues s t) {r : SubscriptionRecord} (hr : r ∈ s.records) {v : Nat}
    (hv : v < r.version) : t.eventsAt r.id v = s.eventsAt r.id v := by
  obtain ⟨added, hadded, hlate⟩ := h.events
  have hnone : added.filter (fun e => e.subscription == r.id && e.version == v) = [] := by
    refine List.filter_eq_nil_iff.2 fun f hf hown => ?_
    simp only [Bool.and_eq_true, beq_iff_eq] at hown
    have := hlate f hf r hr hown.1.symm
    omega
  rw [Store.eventsAt, hadded, List.filter_append, hnone, List.append_nil, Store.eventsAt]

theorem ordering_lt (h : Continues s t) (ht : t.Tidy) {e f : Event}
    (he : e ∈ s.events) (hf : f ∈ t.events) (hnew : f ∉ s.events) : e.ordering < f.ordering := by
  obtain ⟨added, hadded, -⟩ := h.events
  have hin : f ∈ added := (List.mem_append.1 (hadded ▸ hf)).resolve_left hnew
  exact (List.pairwise_append.1 (hadded ▸ ht.pairwise_ordering)).2.2 e he f hin

theorem eventsAt_sublist (h : Continues s t) (hs : s.Tidy) (ht : t.Tidy) (i : SubscriptionId)
    (v : Nat) : (s.eventsAt i v).Sublist (t.eventsAt i v) := by
  -- The old events are told by their orderings, which the new ones exceed.
  let old (e : Event) : Bool := decide (e.ordering ≤ s.events.length)
  obtain ⟨added, hadded, -⟩ := h.events
  have hkept : s.events.filter old = s.events :=
    List.filter_eq_self.2 fun e he => by simpa [old] using hs.ordering_le he
  have hdropped : added.filter old = [] := by
    refine List.filter_eq_nil_iff.2 fun f hf => ?_
    obtain ⟨j, hj⟩ := List.mem_iff_getElem?.1 hf
    have hplace : t.events[s.events.length + j]? = some f := by
      rw [hadded, List.getElem?_append_right (by omega)]
      simpa using hj
    have := ht.orderings _ f hplace
    simp only [old, decide_eq_true_eq]
    omega
  have hsame : (t.eventsAt i v).filter old = s.eventsAt i v := by
    rw [Store.filter_eventsAt, List.filter_filter]
    simp only [Bool.and_comm (old _)]
    rw [← List.filter_filter, hadded, List.filter_append, hkept, hdropped, List.append_nil]
    rfl
  exact hsame ▸ List.filter_sublist

end Continues

theorem Step.continues {s : Store} (hs : s.Sound) (st : Step) : Continues s (st.after s) := by
  rcases st.wrote hs with h | h
  · exact h.symm ▸ .refl s
  · obtain ⟨change, fresh, written, heffect⟩ := h.effect hs
    have htidy := (heffect.sound hs).tidy
    have hadvances (r : SubscriptionRecord) (hr : r ∈ s.records) :
        r.version ≤ (change r).version := by
      rcases heffect.advances r hr with hv | ⟨hv, -⟩ <;> omega
    refine ⟨⟨_, heffect.events, fun f hf r hr hid => ?_⟩, fun r hr =>
      ⟨change r, heffect.mem_records hr, (heffect.keeps r).1, hadvances r hr⟩⟩
    obtain ⟨w, hw, k, -, -, rfl⟩ := mem_filing hf
    obtain ⟨q, hq, hqid, hv⟩ := heffect.current w hw
    have hsame : change r = q := htidy.record_unique (heffect.mem_records hr) hq
      ((heffect.keeps r).1.trans (hid.trans hqid.symm))
    have := hadvances r hr
    rw [hsame] at this
    rw [Event.filed_version]
    omega

theorem Run.continues {s t : Store} (hrun : Run anyStep s t) (hs : s.Sound) : Continues s t := by
  induction hrun with
  | refl => exact .refl _
  | step st hrun _ ih => exact ih.trans (st.continues (hrun.sound hs))

/-! ## Records of repairs -/

/-- The repairs that were committed for a subscription. -/
def Store.repairsFor (s : Store) (i : SubscriptionId) : List RepairRecord :=
  s.repairs.filter (i ∈ ·.subscriptions)

/-- Versions count the repairs that were committed, and repairs were committed for subscriptions
that there are. -/
structure Store.Counted (s : Store) : Prop where
  known : ∀ k ∈ s.repairs, ∀ i ∈ k.subscriptions, ∃ r ∈ s.records, r.id = i
  version : ∀ r ∈ s.records, r.version = 1 + (s.repairsFor r.id).length

/-- A repair that is committed adds a record of what it wrote. -/
theorem Engine.repair_records {e : Engine} {context : CallContext} {now : Instant} {b : BundleId}
    {repair : Repair} {s t : Store} {view : TimelineView} (hlocks : s.locks = [])
    (h : e.repair context now b repair false s = (.ok view, t)) :
    ∃ plan kept, e.planStored context now b repair s = .ok plan ∧
      t.repairs = s.repairs ++ [kept] ∧ kept.Covers plan.commit := by
  obtain ⟨-, u, hu, rfl⟩ := locked_eq_ok hlocks h
  simp only [bind_eq_ok, Bool.false_eq_true, if_false, mapError_eq_ok, pure_eq_ok,
    Prod.mk.injEq] at hu
  obtain ⟨plan, hplan, ⟨_, v⟩, hv, _, -, -, rfl⟩ := hu
  obtain ⟨-, -, kept, hrepairs, hkept⟩ := Store.commitRepair_records hv
  exact ⟨plan, kept, hplan, hrepairs, hkept⟩

theorem Engine.repair_of_succeeds {e : Engine} {context : CallContext} {now : Instant}
    {b : BundleId} {repair : Repair} {dryRun : Bool} {s : Store}
    (h : Step.Succeeds ⟨e, context, now, .repair b repair dryRun⟩ s) :
    ∃ view, e.repair context now b repair dryRun s =
      (.ok view, Step.after ⟨e, context, now, .repair b repair dryRun⟩ s) := by
  change (outcome (e.repair context now b repair dryRun s)).1 = .ok () at h
  obtain ⟨view, hview, -⟩ := map_eq_ok.1 h
  exact ⟨view, Prod.ext hview rfl⟩

theorem Step.repairs_eq {s : Store} (hs : s.Sound) (st : Step) (h : ¬ st.Commits) :
    (st.after s).repairs = s.repairs :=
  (st.staged_accounted s {} (by simp [hs.unlocked])).repairs h

namespace Store.Counted

variable {s t : Store} {change : SubscriptionRecord → SubscriptionRecord}
  {fresh : List SubscriptionRecord} {written : List (Event × Nat)}

/-- Where no repair is committed, versions stay and new subscriptions start at the first. -/
theorem of_rows (hcount : s.Counted) (hs : s.Tidy) (h : Rows s t change fresh written)
    (hrepairs : t.repairs = s.repairs) (hchange : ∀ r, (change r).version = r.version)
    (hfresh : ∀ r ∈ fresh, r.version = 1) : t.Counted where
  known := by
    intro k hk i hi
    obtain ⟨r, hr, hid⟩ := hcount.known k (hrepairs ▸ hk) i hi
    exact ⟨change r, h.mem_records hr, (h.keeps r).1.trans hid⟩
  version := by
    intro r hr
    rw [Store.repairsFor, hrepairs]
    rw [h.records] at hr
    rcases List.mem_append.1 hr with hold | hnew
    · obtain ⟨q, hq, rfl⟩ := List.mem_map.1 hold
      rw [hchange, (h.keeps q).1]
      exact hcount.version q hq
    · -- No repair was committed for a subscription that there was not.
      have hids := (h.tidy hs).recordIds
      rw [h.records, List.map_append, List.nodup_append] at hids
      have hnone : s.repairs.filter (r.id ∈ ·.subscriptions) = [] := by
        refine List.filter_eq_nil_iff.2 fun k hk hmem => ?_
        obtain ⟨q, hq, hid⟩ := hcount.known k hk r.id (by simpa using hmem)
        exact hids.2.2 (change q).id (List.mem_map_of_mem (List.mem_map_of_mem hq)) r.id
          (List.mem_map_of_mem hnew) ((h.keeps q).1.trans hid)
      rw [hnone, hfresh r hnew]
      rfl

/-- A repair moves on the versions of the subscriptions it is committed for, by one. -/
theorem of_repair {bundle : Bundle} {benched : List Rework} {cx : ReplayContext} {repair : Repair}
    {view : String} {plan : RepairPlan} {b : BundleId} {works : List Rework} {kept : RepairRecord}
    (hcount : s.Counted)
    (hp : Planned ⟨bundle, s.subscriptionsOf b, benched⟩ cx repair view works plan)
    (hload : Loaded (s.subscriptionsOf b) cx.ids)
    (h : Rows s t (Store.reviseAll plan.commit.subscriptions) []
      (s.revised plan.commit.subscriptions))
    (hrepairs : t.repairs = s.repairs ++ [kept])
    (hkept : kept.subscriptions = plan.commit.subscriptions.map (·.id)) : t.Counted where
  known := by
    have hold (i : SubscriptionId) (hi : ∃ r ∈ s.records, r.id = i) :
        ∃ r ∈ t.records, r.id = i := by
      obtain ⟨r, hr, hid⟩ := hi
      exact ⟨_, h.mem_records hr, (h.keeps r).1.trans hid⟩
    intro k hk i hi
    rcases List.mem_append.1 (hrepairs ▸ hk) with hk | hk
    · exact hold i (hcount.known k hk i hi)
    · rw [List.mem_singleton.1 hk, hkept] at hi
      obtain ⟨sub, hsub, rfl⟩ := List.mem_map.1 hi
      obtain ⟨w, hw, -, rfl⟩ := hp.mem_commit.1 hsub
      obtain ⟨q, hq, -, hvisible⟩ := hp.exists_record hw
      exact hold w.id ⟨q, hq, congrArg (·.id) hvisible⟩
  version := by
    intro r hr
    rw [h.records, List.append_nil] at hr
    obtain ⟨q, hq, rfl⟩ := List.mem_map.1 hr
    have hcounted := hcount.version q hq
    rw [(h.keeps q).1, Store.repairsFor, hrepairs, List.filter_append, List.length_append]
    by_cases hlisted : q.id ∈ kept.subscriptions
    · have hmem := hlisted
      rw [hkept] at hmem
      obtain ⟨sub, hsub, hid⟩ := List.mem_map.1 hmem
      obtain ⟨w, hw, htouched, rfl⟩ := hp.mem_commit.1 hsub
      rw [hp.touched_version hload hw htouched hid.symm, hcounted, Store.repairsFor]
      simp [hlisted]
      omega
    · have hforeign : ∀ sub ∈ plan.commit.subscriptions, q.id ≠ sub.id := fun sub hsub hid =>
        hlisted (hkept ▸ List.mem_map.2 ⟨sub, hsub, hid.symm⟩)
      rw [Store.reviseAll_of_forall_ne hforeign, hcounted, Store.repairsFor]
      simp [hlisted]

end Store.Counted

theorem Store.version_of_scratch {subs : List Subscription} :
    ∀ r ∈ Store.scratchRecords subs, r.version = 1 := by
  intro r hr
  obtain ⟨sub, -, rfl⟩ := List.mem_map.1 hr
  rfl

theorem Step.counted {s : Store} (hs : s.Sound) (st : Step) (hcount : s.Counted) :
    (st.after s).Counted := by
  rcases st.wrote hs with h | h
  · exact h.symm ▸ hcount
  have hrepairs := Step.repairs_eq hs st
  have hold {change : SubscriptionRecord → SubscriptionRecord} {written : List (Event × Nat)}
      (hrows : Rows s (st.after s) change [] written)
      (hchange : ∀ r, (change r).version = r.version) (hother : ¬ st.Commits) :
      (st.after s).Counted :=
    hcount.of_rows hs.tidy hrows (hrepairs hother) hchange (by simp)
  have hscratch {subs : List Subscription} {written : List (Event × Nat)}
      (hrows : Rows s (st.after s) id (Store.scratchRecords subs) written)
      (hother : ¬ st.Commits) : (st.after s).Counted :=
    hcount.of_rows hs.tidy hrows (hrepairs hother) (fun _ => rfl) Store.version_of_scratch
  cases h with
  | createBundle rows => exact hold rows (fun _ => rfl) (by simp [Step.Commits])
  | createSubscription planned rows => exact hscratch rows (by simp [Step.Commits])
  | changePlan planned rows => exact hold rows (fun _ => rfl) (by simp [Step.Commits])
  | cancel planned rows => exact hold rows (fun _ => rfl) (by simp [Step.Commits])
  | uncancel planned rows => exact hold rows (fun _ => rfl) (by simp [Step.Commits])
  | setChargedThrough rows paid =>
    refine hold rows (fun r => ?_) (by simp [Step.Commits])
    obtain ⟨date, hr⟩ := paid r
    rw [hr]
  | @repair e context now b repair plan planned rows done =>
    obtain ⟨view, hview⟩ := Engine.repair_of_succeeds done
    obtain ⟨plan', kept, hplan, hrecords, hkept⟩ := Engine.repair_records hs.unlocked hview
    obtain rfl : plan' = plan := Except.ok.inj (hplan.symm.trans planned)
    obtain ⟨bundle, benched, works, -, hp⟩ := Engine.planStored_eq_ok planned
    exact hcount.of_repair hp (hs.loaded b (e.supply_fresh _).events) rows hrecords
      hkept.subscriptions
  | migrate planned rows => exact hscratch rows (by simp [Step.Commits])
  | transfer found planned rows => exact hscratch rows (by simp [Step.Commits])

theorem Run.counted {s t : Store} (hrun : Run anyStep s t) (hs : s.Sound) (hcount : s.Counted) :
    t.Counted := by
  induction hrun with
  | refl => exact hcount
  | step st hrun _ ih => exact st.counted (hrun.sound hs) ih

theorem Store.Reachable.counted {s : Store} (h : s.Reachable) : s.Counted :=
  Run.counted h Store.sound_empty ⟨by simp, by simp⟩

/-! ## Deleted events -/

/-- An event that is written either has a new identifier, or its subscription shows one of that
identifier and it is written at the next version. -/
def Renews (s : Store) (written : List (Event × Nat)) : Prop :=
  ∀ w ∈ written, (∀ u ∈ s.events, u.id ≠ w.1.id) ∨
    ∃ r ∈ s.records, ∃ e ∈ s.shown r, e.id = w.1.id ∧ r.id = w.1.subscription ∧
      r.version + 1 = w.2

namespace Renews

variable {s : Store} {ids : Nat → EventId} {ws ws' : List (Event × Nat)}

theorem append (h : Renews s ws) (h' : Renews s ws') : Renews s (ws ++ ws') := fun w hw =>
  (List.mem_append.1 hw).elim (h w) (h' w)

theorem ofScratch {subs : List Subscription} {n : Nat} (hids : Unused ids (·.id) s.events)
    (h : Scratch ids n subs) : Renews s (Store.scratchEvents subs) := by
  intro w hw
  obtain ⟨sub, hsub, hw⟩ := List.mem_flatMap.1 hw
  obtain ⟨e, he, rfl⟩ := List.mem_map.1 hw
  obtain ⟨k, -, hid⟩ := h.drawn sub hsub e he
  exact .inl fun u hu => hid ▸ hids.ne u hu k

theorem ofStamp {stamp : Stamp} {ds : List Draft} (hids : ∀ n, ∀ u ∈ s.events, u.id ≠ ids n) :
    Renews s (s.atVersions (stamp.events ids ds)) := by
  intro w hw
  obtain ⟨e, he, rfl⟩ := List.mem_map.1 hw
  obtain ⟨d, -, k, -, rfl⟩ := Stamp.mem_events he
  exact .inl (hids k)

/-- What a repair keeps it shows at the version before. -/
theorem ofRepair {bundle : Bundle} {benched : List Rework} {cx : ReplayContext} {repair : Repair}
    {view : String} {plan : RepairPlan} {b : BundleId} {r : Replay} (hs : s.Tidy)
    (hp : Planned ⟨bundle, s.subscriptionsOf b, benched⟩ cx repair view r.works plan)
    (hsweep : Sweep cx r []) (hids : Unused cx.ids (·.id) s.events) :
    Renews s (s.revised plan.commit.subscriptions) := by
  intro x hx
  obtain ⟨w, hw, -, he, hv⟩ := hp.mem_revised.1 hx
  rcases List.mem_append.1 he with he | he
  · obtain ⟨q, hq, hid, hshown⟩ := hp.mem_shown_of_kept hw he
    refine .inr ⟨q, hq, x.1, hshown, rfl, (Store.mem_shown.1 hshown).2.1.symm, ?_⟩
    rw [hv, ← hid, Store.versionOf_eq (hs.record?_eq hq)]
  · obtain ⟨n, hid⟩ := hsweep.drawn w hw _ he
    exact .inl fun u hu => hid ▸ hids.ne u hu n

end Renews

/-- Whatever a step writes, it gives no old identifier to another version than the next. -/
theorem Step.renews {s : Store} (hs : s.Sound) (st : Step) :
    ∃ written, (st.after s).events = s.events ++ filing s.events.length written ∧
      Renews s written := by
  rcases st.wrote hs with h | h
  · exact ⟨[], by simp [h, filing], by simp [Renews]⟩
  have hnone : Renews s [] := by simp [Renews]
  have hids := (st.engine.supply_fresh s).events
  have hnew (n : Nat) : ∀ u ∈ s.events, u.id ≠ (st.engine.supply s).event n :=
    fun u hu => hids.ne u hu n
  cases h with
  | createBundle rows => exact ⟨_, rows.events, hnone⟩
  | createSubscription planned rows =>
    exact ⟨_, rows.events, .ofScratch hids (Engine.newSubscription_scratch planned)⟩
  | changePlan planned rows =>
    obtain ⟨_, _, _, _, _, -, -, -, -, -, rfl⟩ := Engine.changeEvents_eq_ok planned
    exact ⟨_, rows.events, .ofStamp hnew⟩
  | cancel planned rows =>
    obtain ⟨_, _, _, -, -, -, -, rfl⟩ := Engine.cancelEvents_eq_ok planned
    exact ⟨_, rows.events, .ofStamp hnew⟩
  | uncancel planned rows =>
    obtain ⟨_, _, -, -, -, rfl⟩ := Engine.uncancelEvents_eq_ok planned
    exact ⟨_, rows.events, .ofStamp hnew⟩
  | setChargedThrough rows paid => exact ⟨_, rows.events, hnone⟩
  | @repair e context now b repair plan planned rows done =>
    obtain ⟨bundle, benched, works, -, hp⟩ := Engine.planStored_eq_ok planned
    obtain ⟨r, rfl, hsweep⟩ := hp.sweep (hs.loaded b hids)
    exact ⟨_, rows.events, .ofRepair hs.tidy hp hsweep hids⟩
  | migrate planned rows =>
    obtain ⟨⟨hi, hscratch⟩, -⟩ := ImportContext.planBundles_scratch
      (Engine.supply_fresh _ s).bundles.injective hids.injective (planMigration_eq_ok planned)
    exact ⟨_, rows.events, .ofScratch hids hscratch⟩
  | transfer found planned rows =>
    obtain ⟨base, -, hsubs, hcancels⟩ := planTransfer_eq_ok planned
    rw [hsubs, hcancels] at rows
    obtain ⟨n, k, hsupply, hscratch⟩ := transferAll_scratch hids.injective
    refine ⟨_, rows.events, (Renews.ofScratch hids hscratch).append ?_⟩
    rw [hsupply]
    exact .ofStamp fun m => hnew (k + m)

/-- The subscription has moved on from version `v`, and no version since then has an event of that
identifier, which is in use. -/
structure Store.Gone (s : Store) (i : SubscriptionId) (v : Nat) (deleted : EventId) : Prop where
  used : ∃ e ∈ s.events, e.id = deleted
  past : ∃ r ∈ s.records, r.id = i ∧ v < r.version
  absent : ∀ f ∈ s.events, f.subscription = i → v < f.version → f.id ≠ deleted

theorem Step.gone {s : Store} (hs : s.Sound) (st : Step) {i : SubscriptionId} {v : Nat}
    {deleted : EventId} (h : s.Gone i v deleted) : (st.after s).Gone i v deleted := by
  obtain ⟨written, hevents, hrenews⟩ := st.renews hs
  obtain ⟨u, hu, huid⟩ := h.used
  obtain ⟨r, hr, hid, hlt⟩ := h.past
  refine ⟨⟨u, ?_, huid⟩, ?_, fun f hf hown hv hsame => ?_⟩
  · rw [hevents]
    exact List.mem_append_left _ hu
  · obtain ⟨q, hq, hqid, hle⟩ := (st.continues hs).versions r hr
    exact ⟨q, hq, hqid.trans hid, Nat.lt_of_lt_of_le hlt hle⟩
  · rcases List.mem_append.1 (hevents ▸ hf) with hf | hf
    · exact h.absent f hf hown hv hsame
    · obtain ⟨w, hw, k, -, -, rfl⟩ := mem_filing hf
      rcases hrenews w hw with hnew | ⟨q, hq, e, he, heid, hqid, -⟩
      · exact hnew u hu (huid.trans hsame.symm)
      · -- The identifier is renewed from the active version, which lies behind `v` already.
        have hqr : q = r := hs.tidy.record_unique hq hr ((hqid.trans hown).trans hid.symm)
        obtain ⟨hmem, hsub, hversion⟩ := Store.mem_shown.1 he
        refine h.absent e hmem ((hsub.trans hqid).trans hown) ?_ (heid.trans hsame)
        rw [hversion, hqr]
        exact hlt

theorem Run.gone {s t : Store} (hrun : Run anyStep s t) (hs : s.Sound) {i : SubscriptionId}
    {v : Nat} {deleted : EventId} (h : s.Gone i v deleted) : t.Gone i v deleted := by
  induction hrun with
  | refl => exact h
  | step st hrun _ ih => exact st.gone (hrun.sound hs) ih

theorem Engine.repair_gone {e : Engine} {context : CallContext} {now : Instant} {b : BundleId}
    {repair : Repair} {s t : Store} {view : TimelineView} (hs : s.Sound)
    (h : e.repair context now b repair false s = (.ok view, t)) {x : Edit} (hx : x ∈ repair.edits)
    {deleted : EventId} (hdeleted : deleted ∈ x.deleted) :
    t.Gone x.subscription (s.versionOf x.subscription) deleted := by
  obtain ⟨bundle, benched, plan, r, hp, hsweep, hrows⟩ := repair_replayed hs h
  have hload := hs.loaded b (e.supply_fresh s).events
  obtain ⟨w, hw, hid⟩ := hp.exists_work hload hx
  obtain ⟨q, hq, -, hvisible⟩ := hp.exists_record hw
  have hqid : q.id = w.id := congrArg (·.id) hvisible
  have hversion : s.versionOf x.subscription = q.version := by
    rw [← hid, ← hqid, Store.versionOf_eq (hs.tidy.record?_eq hq)]
  have hasked : deleted ∈ w.deleted := by
    rw [(hp.work_edits hload hw).2.1]
    exact List.mem_flatMap.2 ⟨x, List.mem_filter.2 ⟨hx, by simp [hid]⟩, hdeleted⟩
  have htouched : w.isTouched = true := by
    have hne : w.deleted ≠ [] := List.ne_nil_of_mem hasked
    simp [Rework.isTouched, hne]
  have hprep := hp.work_prepared hw
  obtain ⟨u, hu, huid⟩ := hprep.deleted deleted hasked
  have hstored : u ∈ s.events := by
    have hmem := (mem_effectiveEvents.1 hu).1
    rw [← hvisible, Store.mem_visible] at hmem
    exact (Store.mem_shown.1 hmem).1
  refine ⟨⟨u, ?_, huid⟩, ⟨_, hrows.mem_records hq, ?_, ?_⟩, fun f hf hown hv hsame => ?_⟩
  · rw [hrows.events]
    exact List.mem_append_left _ hstored
  · exact (hrows.keeps q).1.trans (hqid.trans hid)
  · rw [hversion, hp.touched_version hload hw htouched hqid]
    exact Nat.lt_succ_self _
  · rw [hversion] at hv
    rcases List.mem_append.1 (hrows.events ▸ hf) with hf | hf
    · have := hs.versions f hf q hq ((hqid.trans hid).trans hown.symm)
      omega
    · -- What is written of the subscription is kept, so not deleted, or it has a new identifier.
      obtain ⟨y, hy, k, -, -, rfl⟩ := mem_filing hf
      obtain ⟨w', hw', -, hy, -⟩ := hp.mem_revised.1 hy
      have hww : w' = w := List.inj_on_of_nodup_map hsweep.ids hw' hw
        (((hsweep.own w' hw' _ hy).symm.trans hown).trans hid.symm)
      subst hww
      rcases List.mem_append.1 hy with hkept | hadded
      · exact hprep.keptNotDeleted _ hkept (hsame ▸ hasked)
      · obtain ⟨n, hdrawn⟩ := hsweep.drawn w' hw' _ hadded
        exact (e.supply_fresh s).events.ne u hstored n ((huid.trans hsame.symm).trans hdrawn)

/-! ## Histories -/

/-- Along any run from a reachable store
* no event is altered or removed, and new ones are recorded behind all old ones,
* versions below the active one of a subscription stay as they are, and the active one only grows,
* the version of a subscription is one more than the repairs committed for it,
and what a committed repair deletes of a subscription no later version has. -/
theorem history_is_frozen {s t : Store} (hs : s.Reachable) (hrun : Run anyStep s t) :
    s.events <+: t.events ∧
    (∀ e ∈ s.events, ∀ f ∈ t.events, f ∉ s.events → e.ordering < f.ordering) ∧
    (∀ r ∈ s.records, ∃ q ∈ t.records, q.id = r.id ∧ r.version ≤ q.version ∧
      (∀ v < r.version, t.eventsAt r.id v = s.eventsAt r.id v) ∧
      (s.eventsAt r.id r.version).Sublist (t.eventsAt r.id r.version)) ∧
    (∀ q ∈ t.records, q.version = 1 + (t.repairs.filter (q.id ∈ ·.subscriptions)).length) ∧
    ∀ (e : Engine) (context : CallContext) (now : Instant) (b : BundleId) (repair : Repair)
      (view : TimelineView) (u : Store), e.repair context now b repair false s = (.ok view, u) →
      Run anyStep u t → ∀ x ∈ repair.edits, ∀ deleted ∈ x.deleted, ∀ r ∈ s.records,
        r.id = x.subscription → ∀ v, r.version < v → ∀ f ∈ t.eventsAt r.id v, f.id ≠ deleted := by
  have hsound := hs.sound
  have htidy := (hrun.sound hsound).tidy
  have hcontinues := hrun.continues hsound
  obtain ⟨added, hadded, -⟩ := hcontinues.events
  refine ⟨hadded ▸ List.prefix_append _ _, fun e he f hf hnew => ?_, fun r hr => ?_,
    (hrun.counted hsound hs.counted).version, ?_⟩
  · exact hcontinues.ordering_lt htidy he hf hnew
  · obtain ⟨q, hq, hid, hle⟩ := hcontinues.versions r hr
    exact ⟨q, hq, hid, hle, fun v hv => hcontinues.eventsAt_eq hr hv,
      hcontinues.eventsAt_sublist hsound.tidy htidy r.id r.version⟩
  · intro e context now b repair view u hrepair hlater x hx deleted hdeleted r hr hid v hv f hf
    have hafter : Step.after ⟨e, context, now, .repair b repair false⟩ s = u :=
      congrArg Prod.snd hrepair
    have hgone := hlater.gone (hafter ▸ Step.sound hsound _)
      (Engine.repair_gone hsound hrepair hx hdeleted)
    rw [← hid, Store.versionOf_eq (hsound.tidy.record?_eq hr)] at hgone
    obtain ⟨hmem, hsub, hversion⟩ := Store.mem_eventsAt.1 hf
    exact hgone.absent f hmem hsub (by omega)

/-- A repair that cuts the phase behind a trial off, and an uncancellation after it. The first
version stays, and the second has the creation under its old identifier but not that phase. -/
theorem history_is_frozen_sample :
    let s := Sample.after Sample.trial
    let repaired := (Sample.step 1 (.repair ⟨1⟩ Sample.cutTrial false)).after s
    let t := (Sample.step 2 (.uncancel ⟨1⟩)).after repaired
    t.events.length = s.events.length + 3 ∧ s.events <+: t.events ∧
      t.eventsAt ⟨1⟩ 1 = s.eventsAt ⟨1⟩ 1 ∧
      (∀ q ∈ t.records, q.version = 1 + (t.repairs.filter (q.id ∈ ·.subscriptions)).length) ∧
      (∃ f ∈ t.eventsAt ⟨1⟩ 2, f.id = ⟨1⟩) ∧ ∀ f ∈ t.eventsAt ⟨1⟩ 2, f.id ≠ ⟨2⟩ := by
  intro s repaired t
  have hs : s.Reachable := Sample.reachable_after _
  have hrun : Run anyStep s repaired := .step _ (.refl _) trivial
  have hlater : Run anyStep repaired t := .step _ (.refl _) trivial
  obtain ⟨view, hview⟩ : ∃ view, Sample.engine.repair Sample.caller (Sample.day 1) ⟨1⟩
      Sample.cutTrial false s = (.ok view, repaired) :=
    Engine.repair_of_succeeds (by unfold Step.Succeeds; decide +kernel)
  obtain ⟨hfront, -, -, hversions, hdeleted⟩ := history_is_frozen hs (hrun.trans hlater)
  -- The first version is below the active one once the repair has been committed.
  obtain ⟨-, -, hfrozen, -, -⟩ := history_is_frozen (hs.trans hrun) hlater
  have hold : t.eventsAt ⟨1⟩ 1 = repaired.eventsAt ⟨1⟩ 1 := by
    obtain ⟨q, hq, hid, hv⟩ : ∃ q ∈ repaired.records, q.id = ⟨1⟩ ∧ 1 < q.version := by
      decide +kernel
    obtain ⟨-, -, -, -, hsame, -⟩ := hfrozen q hq
    exact hid ▸ hsame 1 hv
  refine ⟨by decide +kernel, hfront, hold.trans (by decide +kernel), hversions,
    by decide +kernel, fun f hf => ?_⟩
  obtain ⟨r, hr, hid, hv⟩ : ∃ r ∈ s.records, r.id = ⟨1⟩ ∧ r.version < 2 := by decide +kernel
  have hgone := hdeleted _ _ _ _ _ view repaired hview hlater
    ⟨⟨1⟩, [⟨2⟩], [⟨.cancel, Sample.day 20, none, none⟩]⟩ (by simp [Sample.cutTrial]) ⟨2⟩ (by simp)
    r hr hid 2 hv
  rw [hid] at hgone
  exact hgone f hf

end Tenure
