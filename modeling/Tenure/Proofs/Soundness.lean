import Tenure.Proofs.Effects
import Tenure.Proofs.Starts

/-!
# Every store is sound

Whatever a step writes, it writes at the version that the subscription then has, and under an
identifier that is new or that the subscription has used before (`Effect`). From this alone a store
stays sound, so every store that steps lead to from the empty one is (`Store.Reachable.sound`).
-/

namespace Tenure

/-- What all steps that write have in common. -/
structure Effect (s t : Store) (change : SubscriptionRecord → SubscriptionRecord)
    (fresh : List SubscriptionRecord) (written : List (Event × Nat)) : Prop
    extends Rows s t change fresh written where
  /-- A new version is one that events are written of. -/
  advances : ∀ r ∈ s.records, (change r).version = r.version ∨
    (change r).version = r.version + 1 ∧ ∃ w ∈ written, w.1.subscription = r.id
  /-- Events are written at the version that is visible afterwards. -/
  current : ∀ w ∈ written, ∃ r ∈ t.records, r.id = w.1.subscription ∧ r.version = w.2
  known : ∀ w ∈ written, (∃ e ∈ s.events, e.id = w.1.id ∧ e.subscription = w.1.subscription) ∨
    ∀ e ∈ s.events, e.id ≠ w.1.id
  agree : ∀ w ∈ written, ∀ w' ∈ written, w.1.id = w'.1.id → w.1.subscription = w'.1.subscription

namespace Effect

variable {s t : Store} {change : SubscriptionRecord → SubscriptionRecord}
  {fresh : List SubscriptionRecord} {written : List (Event × Nat)}

theorem mem_events (h : Effect s t change fresh written) {f : Event} :
    f ∈ t.events ↔ f ∈ s.events ∨ f ∈ filing s.events.length written := by
  rw [h.events, List.mem_append]

theorem sound (h : Effect s t change fresh written) (hs : s.Sound) : t.Sound where
  tidy := h.tidy hs.tidy
  versions := by
    intro f hf r hr hid
    have htidy := h.tidy hs.tidy
    rcases h.mem_events.1 hf with hf | hf
    · obtain ⟨q, hq, hqid⟩ := hs.tidy.eventRecord f hf
      have hsame : change q = r := htidy.record_unique (h.mem_records hq) hr
        ((h.keeps q).1.trans (hqid.trans hid.symm))
      have hle := hs.versions f hf q hq hqid
      rw [← hsame]
      rcases h.advances q hq with hv | ⟨hv, -⟩ <;> omega
    · obtain ⟨w, hw, k, -, -, rfl⟩ := mem_filing hf
      obtain ⟨q, hq, hqid, hv⟩ := h.current w hw
      have hsame : q = r := htidy.record_unique hq hr (hqid.trans hid.symm)
      rw [← hsame, hv]
      exact Nat.le_refl _
  owner := by
    -- What is drawn is not in use, so an old event shares its identifier with a kept event only.
    have hold (f : Event) (hf : f ∈ s.events) (w : Event × Nat) (hw : w ∈ written)
        (hid : f.id = w.1.id) : f.subscription = w.1.subscription := by
      rcases h.known w hw with ⟨g, hg, hgid, hgsub⟩ | hnew
      · exact (hs.owner f hf g hg (hid.trans hgid.symm)).trans hgsub
      · exact absurd hid (hnew f hf)
    intro f hf g hg hid
    rcases h.mem_events.1 hf with hf | hf <;> rcases h.mem_events.1 hg with hg | hg
    · exact hs.owner f hf g hg hid
    · obtain ⟨w, hw, k, -, -, rfl⟩ := mem_filing hg
      exact hold f hf w hw hid
    · obtain ⟨w, hw, k, -, -, rfl⟩ := mem_filing hf
      exact (hold g hg w hw hid.symm).symm
    · obtain ⟨w, hw, k, -, -, rfl⟩ := mem_filing hf
      obtain ⟨w', hw', k', -, -, rfl⟩ := mem_filing hg
      exact h.agree w hw w' hw' hid
  unlocked := h.locks.trans hs.unlocked

theorem ofRecords (h : Rows s t change fresh [])
    (hversion : ∀ r, (change r).version = r.version) : Effect s t change fresh [] :=
  { h with
    advances := fun r _ => .inl (hversion r)
    current := by simp
    known := by simp
    agree := by simp }

theorem ofNew {subs : List Subscription} {stamp : Stamp} {ids next : Nat → EventId} {n : Nat}
    {ds : List Draft}
    (h : Rows s t id (Store.scratchRecords subs)
      (Store.scratchEvents subs ++ s.atVersions (stamp.events next ds)))
    (hs : s.Tidy) (hids : Unused ids (·.id) s.events) (hscratch : Scratch ids n subs)
    (hnext : ∀ k, next k = ids (n + k))
    (hold : ∀ d ∈ ds, ∃ r ∈ s.records, r.id = d.subscription) :
    Effect s t id (Store.scratchRecords subs)
      (Store.scratchEvents subs ++ s.atVersions (stamp.events next ds)) := by
  have hwritten (w : Event × Nat)
      (hw : w ∈ Store.scratchEvents subs ++ s.atVersions (stamp.events next ds)) :
      (∃ sub ∈ subs, w.1 ∈ sub.events ∧ w.2 = 1) ∨
        w.1 ∈ stamp.events next ds ∧ w.2 = s.versionOf w.1.subscription := by
    rcases List.mem_append.1 hw with hw | hw
    · obtain ⟨sub, hsub, hw⟩ := List.mem_flatMap.1 hw
      obtain ⟨e, he, rfl⟩ := List.mem_map.1 hw
      exact .inl ⟨sub, hsub, he, rfl⟩
    · obtain ⟨e, he, rfl⟩ := List.mem_map.1 hw
      exact .inr ⟨he, rfl⟩
  have hdrawn (e : Event) (he : e ∈ stamp.events next ds) : ∃ k, e.id = ids (n + k) := by
    obtain ⟨d, -, k, -, rfl⟩ := Stamp.mem_events he
    exact ⟨k, hnext k⟩
  have hapart {sub : Subscription} (hsub : sub ∈ subs) {e f : Event} (he : e ∈ sub.events)
      (hf : f ∈ stamp.events next ds) : e.id ≠ f.id := by
    intro hid
    obtain ⟨k, hk, heq⟩ := hscratch.drawn sub hsub e he
    obtain ⟨k', heq'⟩ := hdrawn f hf
    have := hids.injective (heq.symm.trans (hid.trans heq'))
    omega
  have hnextInjective : Function.Injective next := fun k k' hk =>
    Nat.add_left_cancel (hids.injective ((hnext k).symm.trans (hk.trans (hnext k'))))
  refine { h with
    advances := fun r _ => .inl rfl, current := fun w hw => ?_, known := fun w hw => .inr ?_,
    agree := fun w hw w' hw' hid => ?_ }
  · rcases hwritten w hw with ⟨sub, hsub, he, hv⟩ | ⟨he, hv⟩
    · refine ⟨sub.toSubscriptionRecord.filed 1, ?_, (hscratch.own sub hsub _ he).symm, hv.symm⟩
      rw [h.records]
      exact List.mem_append_right _ (List.mem_map_of_mem hsub)
    · obtain ⟨d, hd, k, -, hek⟩ := Stamp.mem_events he
      obtain ⟨r, hr, hid⟩ := hold d hd
      have hsub : r.id = w.1.subscription := by rw [hid, hek]; rfl
      refine ⟨r, ?_, hsub, ?_⟩
      · rw [h.records]
        exact List.mem_append_left _ (by simpa using hr)
      · rw [hv, ← hsub, Store.versionOf_eq (hs.record?_eq hr)]
  · rcases hwritten w hw with ⟨sub, hsub, he, -⟩ | ⟨he, -⟩
    · obtain ⟨k, -, hid⟩ := hscratch.drawn sub hsub _ he
      exact fun f hf => hid ▸ hids.ne f hf k
    · obtain ⟨k, hid⟩ := hdrawn _ he
      exact fun f hf => hid ▸ hids.ne f hf (n + k)
  · rcases hwritten w hw with ⟨sub, hsub, he, -⟩ | ⟨he, -⟩ <;>
      rcases hwritten w' hw' with ⟨sub', hsub', he', -⟩ | ⟨he', -⟩
    · rw [hscratch.own sub hsub _ he, hscratch.own sub' hsub' _ he']
      exact hscratch.agree sub hsub sub' hsub' _ he _ he' hid
    · exact absurd hid (hapart hsub he he')
    · exact absurd hid.symm (hapart hsub' he' he)
    · rw [List.inj_on_of_nodup_map (Stamp.nodup_ids stamp hnextInjective ds) he he' hid]

theorem ofAppended {stamp : Stamp} {ids : Nat → EventId} {ds : List Draft}
    (h : Rows s t id [] (s.atVersions (stamp.events ids ds)))
    (hs : s.Tidy) (hids : Unused ids (·.id) s.events) :
    Effect s t id [] (s.atVersions (stamp.events ids ds)) := by
  have hrows : Rows s t id (Store.scratchRecords [])
      (Store.scratchEvents [] ++ s.atVersions (stamp.events ids ds)) := h
  apply ofNew hrows hs hids .nil fun k => by rw [Nat.zero_add]
  intro d hd
  obtain ⟨_, he⟩ := Stamp.exists_event stamp ids hd
  exact h.known_of_appended hs _ he

theorem ofScratch {subs : List Subscription} {ids : Nat → EventId} {n : Nat}
    (h : Rows s t id (Store.scratchRecords subs) (Store.scratchEvents subs)) (hs : s.Tidy)
    (hids : Unused ids (·.id) s.events) (hscratch : Scratch ids n subs) :
    Effect s t id (Store.scratchRecords subs) (Store.scratchEvents subs) := by
  have hnone : Store.scratchEvents subs ++
      s.atVersions (Stamp.events ⟨.last, .last, ""⟩ (fun k => ids (n + k)) []) =
      Store.scratchEvents subs := List.append_nil _
  rw [← hnone] at h ⊢
  exact ofNew h hs hids hscratch (fun _ => rfl) (by simp)

theorem ofRepair {bundle : Bundle} {benched works : List Rework} {cx : ReplayContext}
    {repair : Repair} {view : String} {plan : RepairPlan} {b : BundleId}
    (h : Rows s t (Store.reviseAll plan.commit.subscriptions) []
      (s.revised plan.commit.subscriptions))
    (hs : s.Sound) (hp : Planned ⟨bundle, s.subscriptionsOf b, benched⟩ cx repair view works plan)
    (hids : Unused cx.ids (·.id) s.events) :
    Effect s t (Store.reviseAll plan.commit.subscriptions) []
      (s.revised plan.commit.subscriptions) := by
  have hload : Loaded (s.subscriptionsOf b) cx.ids := hs.loaded b hids
  obtain ⟨r, rfl, hsweep⟩ := hp.sweep hload
  refine { h with advances := fun q hq => ?_, current := ?_, known := ?_, agree := ?_ }
  · by_cases htouched : ∃ w ∈ r.works, w.id = q.id ∧ w.isTouched = true
    · obtain ⟨w, hw, hid, ht⟩ := htouched
      refine .inr ⟨hp.touched_version hload hw ht hid.symm, ?_⟩
      obtain ⟨e, he⟩ := List.exists_mem_of_ne_nil _ (hp.events_ne_nil hload hw)
      exact ⟨(e, _), hp.mem_revised.2 ⟨w, hw, ht, he, rfl⟩, (hsweep.own w hw e he).trans hid⟩
    · left
      rw [Store.reviseAll_of_forall_ne (hp.commit_foreign fun w hw hid => by
        simpa using fun ht => htouched ⟨w, hw, hid, ht⟩)]
  · intro x hx
    obtain ⟨w, hw, ht, he, hv⟩ := hp.mem_revised.1 hx
    obtain ⟨q, hq, -, hvisible⟩ := hp.exists_record hw
    have hid : q.id = w.id := congrArg (·.id) hvisible
    refine ⟨Store.reviseAll plan.commit.subscriptions q, h.mem_records hq, ?_, ?_⟩
    · rw [(h.keeps q).1, hid, hsweep.own w hw _ he]
    · rw [hp.touched_version hload hw ht hid, hv, ← hid, Store.versionOf_eq (hs.tidy.record?_eq hq)]
  · intro x hx
    obtain ⟨w, hw, -, he, -⟩ := hp.mem_revised.1 hx
    rcases List.mem_append.1 he with he | he
    · obtain ⟨q, -, -, hmem⟩ := hp.mem_shown_of_kept hw he
      exact .inl ⟨x.1, (Store.mem_shown.1 hmem).1, rfl, rfl⟩
    · obtain ⟨k, hid⟩ := hsweep.drawn w hw _ he
      exact .inr fun f hf => hid ▸ hids.ne f hf k
  · intro x hx x' hx' hid
    obtain ⟨w, hw, -, he, -⟩ := hp.mem_revised.1 hx
    obtain ⟨w', hw', -, he', -⟩ := hp.mem_revised.1 hx'
    rw [List.inj_on_of_nodup_map hsweep.distinct (List.mem_flatMap.2 ⟨w, hw, he⟩)
      (List.mem_flatMap.2 ⟨w', hw', he'⟩) hid]

end Effect

/-! ## Steps and runs -/

/-- What a step writes, whatever the operation. -/
theorem Wrote.effect {s t : Store} {st : Step} (h : Wrote s t st) (hs : s.Sound) :
    ∃ change fresh written, Effect s t change fresh written := by
  cases h with
  | createBundle rows => exact ⟨_, _, _, .ofRecords rows fun _ => rfl⟩
  | createSubscription planned rows =>
    exact ⟨_, _, _, .ofScratch rows hs.tidy (Engine.supply_fresh _ s).events
      (Engine.newSubscription_scratch planned)⟩
  | changePlan planned rows =>
    obtain ⟨_, _, _, _, _, -, -, -, -, -, rfl⟩ := Engine.changeEvents_eq_ok planned
    exact ⟨_, _, _, .ofAppended rows hs.tidy (Engine.supply_fresh _ s).events⟩
  | cancel planned rows =>
    obtain ⟨_, _, _, -, -, -, -, rfl⟩ := Engine.cancelEvents_eq_ok planned
    exact ⟨_, _, _, .ofAppended rows hs.tidy (Engine.supply_fresh _ s).events⟩
  | uncancel planned rows =>
    obtain ⟨_, _, -, -, -, rfl⟩ := Engine.uncancelEvents_eq_ok planned
    exact ⟨_, _, _, .ofAppended rows hs.tidy (Engine.supply_fresh _ s).events⟩
  | setChargedThrough rows paid =>
    refine ⟨_, _, _, .ofRecords rows fun r => ?_⟩
    obtain ⟨date, hr⟩ := paid r
    rw [hr]
  | repair planned rows _ =>
    obtain ⟨b, benched, works, -, hp⟩ := Engine.planStored_eq_ok planned
    exact ⟨_, _, _, .ofRepair rows hs hp (Engine.supply_fresh _ s).events⟩
  | @migrate e _ _ _ _ planned rows =>
    have hfresh := e.supply_fresh s
    obtain ⟨⟨n, hscratch⟩, -⟩ := ImportContext.planBundles_scratch hfresh.bundles.injective
      hfresh.events.injective (planMigration_eq_ok planned)
    exact ⟨_, _, _, .ofScratch rows hs.tidy hfresh.events hscratch⟩
  | @transfer e _ _ _ _ _ found planned rows =>
    obtain ⟨base, -, hsubs, hcancels⟩ := planTransfer_eq_ok planned
    rw [hsubs, hcancels] at rows
    have hfresh := (e.supply_fresh s).events
    obtain ⟨n, k, hsupply, hscratch⟩ := transferAll_scratch hfresh.injective
    refine ⟨_, _, _, .ofNew rows hs.tidy hfresh hscratch (fun m => by rw [hsupply]; rfl)
      fun d hd => ?_⟩
    obtain ⟨sub, hsub, hd⟩ := List.mem_filterMap.1 hd
    obtain ⟨date, -, rfl⟩ := Option.map_eq_some_iff.1 hd
    obtain ⟨r, hr, -, rfl⟩ := Store.mem_subscriptionsOf.1 hsub
    exact ⟨r, hr, rfl⟩

theorem Step.sound {s : Store} (hs : s.Sound) (st : Step) : (st.after s).Sound := by
  rcases st.wrote hs with h | h
  · rwa [h]
  · obtain ⟨change, fresh, written, heffect⟩ := h.effect hs
    exact heffect.sound hs

theorem Step.exists_record {s : Store} (hs : s.Sound) (st : Step) {q : SubscriptionRecord}
    (hq : q ∈ s.records) : ∃ x ∈ (st.after s).records, x.id = q.id := by
  rcases st.wrote hs with h | h
  · exact ⟨q, h.symm ▸ hq, rfl⟩
  · obtain ⟨change, fresh, written, heffect⟩ := h.effect hs
    exact ⟨change q, heffect.mem_records hq, (heffect.keeps q).1⟩

theorem Run.sound {allowed : Store → Step → Prop} {s t : Store} (h : Run allowed s t)
    (hs : s.Sound) : t.Sound :=
  h.preserves (fun _ st _ hs => st.sound hs) hs

theorem Store.Reachable.sound {s : Store} (h : s.Reachable) : s.Sound :=
  Run.sound h Store.sound_empty

end Tenure
