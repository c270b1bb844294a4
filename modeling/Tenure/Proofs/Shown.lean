import Tenure.Proofs.Soundness

/-!
# What subscriptions show after a write

A write puts new events behind those that a subscription shows. Which ones is read off the list of
what is written: those of the subscription at its version (`Rows.shown`). For the three kinds of
writes this comes to the rewritten history of a repaired subscription, the whole history of one
written from scratch, and the new events of one that was there.
-/

namespace Tenure

/-- Events as they lie in the store, in the order in which they were written behind `n` others. -/
def Laid (n : Nat) (fs : List Event) (ws : List (Event × Nat)) : Prop :=
  List.Forall₂ (fun f w => ∃ k, n < k ∧ f = w.1.filed w.2 k) fs ws

theorem Laid.forall₂ {n v : Nat} {fs es : List Event} (h : Laid n fs (es.map (·, v))) :
    List.Forall₂ (fun f e => ∃ k, n < k ∧ f = e.filed v k) fs es :=
  List.forall₂_map_right_iff.1 h

theorem laid_filter_filing (n : Nat) (ws : List (Event × Nat)) (i : SubscriptionId) (v : Nat) :
    Laid n ((filing n ws).filter fun e => e.subscription == i && e.version == v)
      (ws.filter fun w => w.1.subscription == i && w.2 == v) := by
  have hmono {m : Nat} (hm : n ≤ m) : Laid n
      ((filing m ws).filter fun e => e.subscription == i && e.version == v)
      (ws.filter fun w => w.1.subscription == i && w.2 == v) := by
    induction ws generalizing m with
    | nil => exact .nil
    | cons w ws ih =>
      rw [filing, List.filter_cons, List.filter_cons, Event.filed_subscription, Event.filed_version]
      split
      · exact .cons ⟨m + 1, by omega, rfl⟩ (ih (by omega))
      · exact ih (by omega)
  exact hmono (Nat.le_refl n)

/-- The events of a subscription are those it showed and those written of it. -/
theorem Rows.shown {s t : Store} {change : SubscriptionRecord → SubscriptionRecord}
    {fresh : List SubscriptionRecord} {written : List (Event × Nat)}
    (h : Rows s t change fresh written) (r : SubscriptionRecord) :
    ∃ fs, t.shown r = s.shown r ++ fs ∧ Laid s.events.length fs
      (written.filter fun w => w.1.subscription == r.id && w.2 == r.version) := by
  refine ⟨_, ?_, laid_filter_filing _ _ _ _⟩
  rw [Store.shown, h.events, List.filter_append]
  rfl

/-- What is written of one subscription at its version, if all of it is written at that version. -/
theorem filter_written {ws ws' : List (Event × Nat)} {i : SubscriptionId} {v : Nat}
    (h : (ws.filter fun w => w.1.subscription == i) = ws') (hv : ∀ w ∈ ws', w.2 = v) :
    (ws.filter fun w => w.1.subscription == i && w.2 == v) = ws' := by
  have hcomm : (fun w : Event × Nat => w.1.subscription == i && w.2 == v) =
      fun w => w.2 == v && w.1.subscription == i := funext fun w => Bool.and_comm _ _
  rw [hcomm, ← List.filter_filter, h]
  exact List.filter_eq_self.2 fun w hw => by simp [hv w hw]

theorem filter_key_flatMap {α β κ : Type} [DecidableEq κ] {xs : List α} {k : α → κ}
    {f : α → List β} {o : β → κ} (hnodup : (xs.map k).Nodup)
    (hown : ∀ x ∈ xs, ∀ y ∈ f x, o y = k x) {x : α} (hx : x ∈ xs) :
    (xs.flatMap f).filter (fun y => o y == k x) = f x := by
  induction xs with
  | nil => cases hx
  | cons z zs ih =>
    obtain ⟨hnew, hnodup⟩ := List.nodup_cons.1 hnodup
    have hfirst : (f z).filter (fun y => o y == k x) = if k z = k x then f z else [] := by
      split
      next hkey => exact List.filter_eq_self.2 fun y hy => by simp [hown z (by simp) y hy, hkey]
      next hkey => exact List.filter_eq_nil_iff.2 fun y hy => by simp [hown z (by simp) y hy, hkey]
    rw [List.flatMap_cons, List.filter_append, hfirst]
    rcases List.mem_cons.1 hx with rfl | hx
    · have hrest : (zs.flatMap f).filter (fun y => o y == k x) = [] := by
        apply List.filter_eq_nil_iff.2
        intro y hy
        obtain ⟨z, hz, hy⟩ := List.mem_flatMap.1 hy
        rw [hown z (by simp [hz]) y hy]
        simpa using fun hkey => hnew (List.mem_map.2 ⟨z, hz, hkey⟩)
      rw [hrest, if_pos rfl, List.append_nil]
    · have hne : k z ≠ k x := fun hkey => hnew (List.mem_map.2 ⟨x, hx, hkey.symm⟩)
      rw [if_neg hne, List.nil_append]
      exact ih hnodup (fun z hz => hown z (by simp [hz])) hx

/-! ## Repairs -/

section Repairs

variable {s t : Store} {subs : List RepairedSubscription} {q : SubscriptionRecord}

theorem Rows.shown_revised (h : Rows s t (Store.reviseAll subs) [] (s.revised subs)) (hs : s.Sound)
    (hnodup : (subs.map (·.id)).Nodup)
    (hown : ∀ sub ∈ subs, ∀ e ∈ sub.events, e.subscription = sub.id)
    {sub : RepairedSubscription} (hsub : sub ∈ subs) (hq : q ∈ s.records) (hid : q.id = sub.id) :
    Laid s.events.length (t.shown (Store.reviseAll subs q))
      (sub.events.map (·, q.version + 1)) := by
  have hrecord : Store.reviseAll subs q = Store.revise sub q :=
    Store.reviseAll_of_mem hnodup hsub hid
  have hversion : (Store.revise sub q).version = q.version + 1 := by simp [Store.revise, hid]
  obtain ⟨fs, hshown, hlaid⟩ := h.shown (Store.revise sub q)
  have hnone : s.shown (Store.revise sub q) = [] := by
    apply List.eq_nil_iff_forall_not_mem.2
    intro e he
    obtain ⟨he, howner, hv⟩ := Store.mem_shown.1 he
    rw [Store.revise_id] at howner
    have := hs.versions e he q hq howner.symm
    omega
  have hwritten : (s.revised subs).filter (fun w => w.1.subscription == sub.id) =
      sub.events.map (·, q.version + 1) := by
    have hforsub := filter_key_flatMap (f := fun sub : RepairedSubscription =>
      sub.events.map (·, s.versionOf sub.id + 1)) (o := fun w : Event × Nat => w.1.subscription)
      hnodup (fun sub hsub w hw => by
        obtain ⟨e, he, rfl⟩ := List.mem_map.1 hw
        exact hown sub hsub e he) hsub
    rw [← hid, Store.versionOf_eq (hs.tidy.record?_eq hq), hid] at hforsub
    exact hforsub
  rw [Store.revise_id, hversion, hid, filter_written hwritten (by simp)] at hlaid
  rwa [hrecord, hshown, hnone, List.nil_append]

theorem Rows.shown_unrevised (h : Rows s t (Store.reviseAll subs) [] (s.revised subs))
    (hown : ∀ sub ∈ subs, ∀ e ∈ sub.events, e.subscription = sub.id)
    (hid : ∀ sub ∈ subs, q.id ≠ sub.id) : t.shown q = s.shown q := by
  obtain ⟨fs, hshown, hlaid⟩ := h.shown q
  have hwritten : (s.revised subs).filter (fun w => w.1.subscription == q.id) = [] := by
    apply List.filter_eq_nil_iff.2
    intro w hw
    obtain ⟨sub, hsub, hw⟩ := List.mem_flatMap.1 hw
    obtain ⟨e, he, rfl⟩ := List.mem_map.1 hw
    simpa [hown sub hsub e he] using (hid sub hsub).symm
  rw [filter_written hwritten (by simp)] at hlaid
  cases hlaid
  rw [hshown, List.append_nil]

end Repairs

namespace Planned

variable {bundle : Bundle} {benched works : List Rework} {cx : ReplayContext} {repair : Repair}
  {view : String} {plan : RepairPlan} {s t : Store} {b : BundleId} {r : Replay}

theorem repaired_own
    (hp : Planned ⟨bundle, s.subscriptionsOf b, benched⟩ cx repair view r.works plan)
    (hsweep : Sweep cx r []) :
    ∀ sub ∈ plan.commit.subscriptions, ∀ e ∈ sub.events, e.subscription = sub.id := by
  intro sub hsub e he
  obtain ⟨w, hw, -, rfl⟩ := hp.mem_commit.1 hsub
  exact hsweep.own w hw e he

/-- After a repair a subscription is a touched one with its new history, or what it was. -/
theorem record_cases
    (hp : Planned ⟨bundle, s.subscriptionsOf b, benched⟩ cx repair view r.works plan)
    (hs : s.Sound) (hids : Unused cx.ids (·.id) s.events) (hsweep : Sweep cx r [])
    (hrows : Rows s t (Store.reviseAll plan.commit.subscriptions) []
      (s.revised plan.commit.subscriptions))
    {x : SubscriptionRecord} (hx : x ∈ t.records) :
    (∃ w ∈ r.works, w.isTouched = true ∧ ∃ q ∈ s.records, s.visible q = w.subscription ∧
      x = Store.revise (Workbench.repaired ⟨bundle, s.subscriptionsOf b, benched⟩ w) q ∧
      Laid s.events.length (t.shown x) (w.events.map (·, q.version + 1))) ∨
    x ∈ s.records ∧ t.shown x = s.shown x ∧
      ∀ w ∈ r.works, w.id = x.id → w.isTouched = false := by
  have hload : Loaded (s.subscriptionsOf b) cx.ids := hs.loaded b hids
  rw [hrows.records, List.append_nil] at hx
  obtain ⟨q, hq, rfl⟩ := List.mem_map.1 hx
  by_cases htouched : ∃ w ∈ r.works, w.id = q.id ∧ w.isTouched = true
  · obtain ⟨w, hw, hid, htouched⟩ := htouched
    have hsub := hp.repaired_mem hw htouched
    obtain ⟨q', hq', -, hvisible⟩ := hp.exists_record hw
    have hsame : q' = q :=
      hs.tidy.record_unique hq' hq ((congrArg (·.id) hvisible).trans hid)
    subst hsame
    have hlaid := hrows.shown_revised hs (hp.commit_ids hload) (hp.repaired_own hsweep) hsub hq
      hid.symm
    have hrecord := Store.reviseAll_of_mem (hp.commit_ids hload) hsub hid.symm
    exact .inl ⟨w, hw, htouched, q', hq, hvisible, hrecord, hlaid⟩
  · have huntouched : ∀ w ∈ r.works, w.id = q.id → w.isTouched = false := by
      intro w hw hid
      simpa using fun ht => htouched ⟨w, hw, hid, ht⟩
    have hforeign := hp.commit_foreign huntouched
    rw [Store.reviseAll_of_forall_ne hforeign]
    exact .inr ⟨hq, hrows.shown_unrevised (hp.repaired_own hsweep) hforeign, huntouched⟩

end Planned

/-! ## Subscriptions from scratch and appended events -/

section Scratch

variable {s t : Store} {subs : List Subscription} {es : List Event}

theorem Rows.shown_scratch (h : Rows s t id (Store.scratchRecords subs)
    (Store.scratchEvents subs ++ s.atVersions es)) (hs : s.Tidy)
    (hown : ∀ sub ∈ subs, ∀ e ∈ sub.events, e.subscription = sub.id)
    (hold : ∀ e ∈ es, ∃ r ∈ s.records, r.id = e.subscription)
    {sub : Subscription} (hsub : sub ∈ subs) :
    Laid s.events.length (t.shown (sub.toSubscriptionRecord.filed 1)) (sub.events.map (·, 1)) := by
  have hids := (h.tidy hs).recordIds
  rw [h.records, List.map_id, List.map_append, List.nodup_append] at hids
  obtain ⟨-, hfresh, hdisjoint⟩ := hids
  rw [Store.scratchRecords, List.map_map] at hfresh hdisjoint
  have hnew (r : SubscriptionRecord) (hr : r ∈ s.records) : r.id ≠ sub.id :=
    hdisjoint _ (List.mem_map_of_mem hr) _ (List.mem_map.2 ⟨sub, hsub, rfl⟩)
  obtain ⟨fs, hshown, hlaid⟩ := h.shown (sub.toSubscriptionRecord.filed 1)
  have hnone : s.shown (sub.toSubscriptionRecord.filed 1) = [] := by
    apply List.eq_nil_iff_forall_not_mem.2
    intro e he
    obtain ⟨he, howner, -⟩ := Store.mem_shown.1 he
    obtain ⟨r, hr, hid⟩ := hs.eventRecord e he
    exact hnew r hr (hid.trans howner)
  have hwritten : (Store.scratchEvents subs ++ s.atVersions es).filter
      (fun w => w.1.subscription == sub.id) = sub.events.map (·, 1) := by
    have hforsub := filter_key_flatMap (f := fun sub : Subscription => sub.events.map (·, 1))
      (o := fun w : Event × Nat => w.1.subscription) hfresh (fun sub hsub w hw => by
        obtain ⟨e, he, rfl⟩ := List.mem_map.1 hw
        exact hown sub hsub e he) hsub
    have hnone : (s.atVersions es).filter (fun w => w.1.subscription == sub.id) = [] := by
      apply List.filter_eq_nil_iff.2
      intro w hw
      obtain ⟨e, he, rfl⟩ := List.mem_map.1 hw
      obtain ⟨r, hr, hid⟩ := hold e he
      simpa [hid] using hnew r hr
    rw [List.filter_append, hnone, List.append_nil]
    exact hforsub
  rw [SubscriptionRecord.filed_id, SubscriptionRecord.filed_version,
    filter_written hwritten (by simp)] at hlaid
  rwa [hshown, hnone, List.nil_append]

theorem Rows.shown_appended (h : Rows s t id (Store.scratchRecords subs)
    (Store.scratchEvents subs ++ s.atVersions es)) (hs : s.Tidy)
    (hown : ∀ sub ∈ subs, ∀ e ∈ sub.events, e.subscription = sub.id)
    {r : SubscriptionRecord} (hr : r ∈ s.records) :
    ∃ fs, t.shown r = s.shown r ++ fs ∧ Laid s.events.length fs
      ((es.filter (·.subscription == r.id)).map (·, r.version)) := by
  have hids := (h.tidy hs).recordIds
  rw [h.records, List.map_id, List.map_append, List.nodup_append] at hids
  obtain ⟨-, -, hdisjoint⟩ := hids
  obtain ⟨fs, hshown, hlaid⟩ := h.shown r
  have hwritten : (Store.scratchEvents subs ++ s.atVersions es).filter
      (fun w => w.1.subscription == r.id) =
      (es.filter (·.subscription == r.id)).map (·, r.version) := by
    have hnone : (Store.scratchEvents subs).filter (fun w => w.1.subscription == r.id) = [] := by
      apply List.filter_eq_nil_iff.2
      intro w hw
      obtain ⟨sub, hsub, hw⟩ := List.mem_flatMap.1 hw
      obtain ⟨e, he, rfl⟩ := List.mem_map.1 hw
      have hne := hdisjoint _ (List.mem_map_of_mem hr) sub.id
        (List.mem_map.2 ⟨_, List.mem_map_of_mem hsub, rfl⟩)
      simpa [hown sub hsub e he] using hne.symm
    rw [List.filter_append, hnone, List.nil_append, Store.atVersions, List.filter_map]
    apply List.map_congr_left
    intro e he
    have hid : e.subscription = r.id := by simpa using (List.mem_filter.1 he).2
    rw [hid, Store.versionOf_eq (hs.record?_eq hr)]
  rw [filter_written hwritten fun w hw => by
    obtain ⟨e, -, rfl⟩ := List.mem_map.1 hw
    rfl] at hlaid
  exact ⟨fs, hshown, hlaid⟩

/-- After any other write a subscription is one from scratch, or one that was there with its new
events behind the others. -/
theorem Rows.record_cases (h : Rows s t id (Store.scratchRecords subs)
    (Store.scratchEvents subs ++ s.atVersions es)) (hs : s.Tidy)
    (hown : ∀ sub ∈ subs, ∀ e ∈ sub.events, e.subscription = sub.id)
    (hold : ∀ e ∈ es, ∃ r ∈ s.records, r.id = e.subscription)
    {x : SubscriptionRecord} (hx : x ∈ t.records) :
    (∃ sub ∈ subs, x = sub.toSubscriptionRecord.filed 1 ∧ (∀ q ∈ s.records, q.id ≠ x.id) ∧
      Laid s.events.length (t.shown x) (sub.events.map (·, 1))) ∨
    x ∈ s.records ∧ ∃ fs, t.shown x = s.shown x ++ fs ∧ Laid s.events.length fs
      ((es.filter (·.subscription == x.id)).map (·, x.version)) := by
  have hids := (h.tidy hs).recordIds
  rw [h.records, List.map_id, List.map_append, List.nodup_append] at hids
  rw [h.records, List.map_id] at hx
  rcases List.mem_append.1 hx with hx | hx
  · exact .inr ⟨hx, h.shown_appended hs hown hx⟩
  · obtain ⟨sub, hsub, rfl⟩ := List.mem_map.1 hx
    refine .inl ⟨sub, hsub, rfl, fun q hq => ?_, h.shown_scratch hs hown hold hsub⟩
    exact hids.2.2 _ (List.mem_map_of_mem hq) _ (List.mem_map_of_mem hx)

theorem Rows.appended_cases (h : Rows s t id [] (s.atVersions es)) (hs : s.Tidy)
    {x : SubscriptionRecord} (hx : x ∈ t.records) :
    x ∈ s.records ∧ ∃ fs, t.shown x = s.shown x ++ fs ∧ Laid s.events.length fs
      ((es.filter (·.subscription == x.id)).map (·, x.version)) := by
  have rows : Rows s t id (Store.scratchRecords []) (Store.scratchEvents [] ++ s.atVersions es) := h
  exact (rows.record_cases hs (by simp) (h.known_of_appended hs) hx).resolve_left (by simp)

theorem Rows.alone (h : Rows s t id (Store.scratchRecords subs) (Store.scratchEvents subs)) :
    Rows s t id (Store.scratchRecords subs) (Store.scratchEvents subs ++ s.atVersions []) := by
  simpa [Store.atVersions] using h

theorem Rows.laid_scratch (h : Rows s t id (Store.scratchRecords subs) (Store.scratchEvents subs))
    (hs : s.Tidy) (hown : ∀ sub ∈ subs, ∀ e ∈ sub.events, e.subscription = sub.id) :
    ∀ sub ∈ subs, Laid s.events.length (t.shown (sub.toSubscriptionRecord.filed 1))
      (sub.events.map (·, 1)) := fun _ hsub =>
  h.alone.shown_scratch hs hown (by simp) hsub

theorem Rows.shown_beside (h : Rows s t id (Store.scratchRecords subs) (Store.scratchEvents subs))
    (hs : s.Tidy) (hown : ∀ sub ∈ subs, ∀ e ∈ sub.events, e.subscription = sub.id)
    {r : SubscriptionRecord} (hr : r ∈ s.records) : t.shown r = s.shown r := by
  obtain ⟨fs, hshown, hnone⟩ := h.alone.shown_appended hs hown hr
  cases hnone
  rw [hshown, List.append_nil]

theorem Rows.scratch_cases (h : Rows s t id (Store.scratchRecords subs) (Store.scratchEvents subs))
    (hs : s.Tidy) (hown : ∀ sub ∈ subs, ∀ e ∈ sub.events, e.subscription = sub.id)
    {x : SubscriptionRecord} (hx : x ∈ t.records) :
    (∃ sub ∈ subs, Laid s.events.length (t.shown x) (sub.events.map (·, 1))) ∨
      x ∈ s.records ∧ t.shown x = s.shown x := by
  rcases h.alone.record_cases hs hown (by simp) hx with ⟨sub, hsub, -, -, hlaid⟩ | ⟨hx, -⟩
  · exact .inl ⟨sub, hsub, hlaid⟩
  · exact .inr ⟨hx, h.shown_beside hs hown hx⟩

theorem Rows.subscriptionsOf_scratch {written : List (Event × Nat)}
    (h : Rows s t id (Store.scratchRecords subs) written) (hs : s.Tidy) {b : BundleId}
    (hnew : ∀ c ∈ s.bundles, c.id ≠ b) :
    (t.subscriptionsOf b).Perm ((subs.filter (·.bundle == b)).map fun sub =>
      t.visible (sub.toSubscriptionRecord.filed 1)) := by
  have hnone : s.records.filter (·.bundle == b) = [] :=
    List.filter_eq_nil_iff.2 fun r hr hb => hs.bundle_ne hr hnew (eq_of_beq hb)
  have hrecords : t.records.filter (·.bundle == b) =
      (subs.filter (·.bundle == b)).map fun sub => sub.toSubscriptionRecord.filed 1 := by
    rw [h.records, List.map_id, List.filter_append, hnone, List.nil_append, Store.scratchRecords,
      List.filter_map]
    rfl
  refine ((sortBy_perm _ _).map _).trans ?_
  rw [hrecords, List.map_map]
  rfl

end Scratch

end Tenure
