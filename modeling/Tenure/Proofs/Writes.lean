import Tenure.Proofs.Filing

/-!
# The writes of the store, one by one

For each write that succeeds, the rows it leaves (`Rows`): which events it files at which
version, which records it adds, and what it changes in those there are. The writes of whole
operations are put together from those of single rows.
-/

namespace Tenure

namespace Store

variable {s t : Store}

/-! ## Single rows -/

theorem insertBundle_rows {b : Bundle} (h : s.insertBundle b = .ok t) : Rows s t id [] [] := by
  unfold insertBundle at h
  split at h
  · cases h
  next hclash =>
    cases h
    refine ⟨by simp, by simp [filing], by simp, ⟨id, _, by simp; rfl, by simp⟩, rfl, fun hs => ?_⟩
    refine { hs with
      bundleIds := ?_, recordBundle := fun r hr => ?_, bundleDates := fun c hc => ?_ }
    · simp only [List.map_append, List.map_cons, List.map_nil]
      refine List.nodup_append.2 ⟨hs.bundleIds, by simp, fun i hi j hj => ?_⟩
      obtain ⟨c, hc, rfl⟩ := List.mem_map.1 hi
      rw [List.mem_singleton.1 hj]
      intro hid
      exact hclash (List.any_eq_true.2 ⟨c, hc, by simp [hid]⟩)
    · obtain ⟨b', hb', hid⟩ := hs.recordBundle r hr
      exact ⟨b', List.mem_append_left _ hb', hid⟩
    · rcases List.mem_append.1 hc with hc | hc
      · exact hs.bundleDates c hc
      · rw [List.mem_singleton.1 hc]
        exact Instant.floorMillis_floorMillis _

theorem insertRecord_rows {r : SubscriptionRecord} {version : Nat}
    (h : s.insertRecord r version = .ok t) : Rows s t id [r.filed version] [] := by
  unfold insertRecord at h
  split at h
  · cases h
  next hclash =>
    cases h
    simp only [Bool.or_eq_true, Bool.not_eq_true', not_or, Bool.not_eq_false, List.any_eq_true,
      not_exists, not_and, beq_iff_eq] at hclash
    obtain ⟨hnew, b, hb, hid⟩ := hclash
    refine ⟨by simp [SubscriptionRecord.filed], by simp [filing], by simp,
      ⟨id, [], by simp, by simp⟩, rfl, fun hs => ?_⟩
    refine { hs with
      recordIds := ?_, recordBundle := fun q hq => ?_, eventRecord := fun e he => ?_,
      recordDates := fun q hq => ?_ }
    · simp only [List.map_append, List.map_cons, List.map_nil]
      refine List.nodup_append.2 ⟨hs.recordIds, by simp, fun i hi j hj => ?_⟩
      obtain ⟨q, hq, rfl⟩ := List.mem_map.1 hi
      rw [List.mem_singleton.1 hj]
      exact hnew q hq
    · rcases List.mem_append.1 hq with hq | hq
      · exact hs.recordBundle q hq
      · rw [List.mem_singleton.1 hq]
        exact ⟨b, hb, hid⟩
    · obtain ⟨q, hq, hid⟩ := hs.eventRecord e he
      exact ⟨q, List.mem_append_left _ hq, hid⟩
    · rcases List.mem_append.1 hq with hq | hq
      · exact hs.recordDates q hq
      · rw [List.mem_singleton.1 hq]
        exact r.inMillis_filed version

theorem insertEvent_eq_ok {e stored : Event} {version : Nat} :
    s.insertEvent e version = .ok (stored, t) ↔
      (∀ f ∈ s.events, (f.id, f.version) ≠ (e.id, version)) ∧
      (∃ r ∈ s.records, r.id = e.subscription) ∧ stored = s.stamped e version ∧
      t = { s with events := s.events ++ [e.filed version (s.events.length + 1)] } := by
  unfold insertEvent
  split
  next hbad =>
    simp only [Bool.or_eq_true, Bool.not_eq_true', List.any_eq_true, List.any_eq_false,
      Bool.and_eq_true, beq_iff_eq] at hbad
    refine ⟨nofun, fun ⟨hnew, ⟨r, hr, hid⟩, _⟩ => ?_⟩
    rcases hbad with ⟨f, hf, hid', hv⟩ | hnone
    · exact absurd (Prod.ext hid' hv) (hnew f hf)
    · exact absurd hid (hnone r hr)
  next hgood =>
    simp only [Bool.or_eq_true, Bool.not_eq_true', not_or, Bool.not_eq_false, List.any_eq_true,
      not_exists, Bool.and_eq_true, beq_iff_eq, not_and] at hgood
    simp only [Except.ok.injEq, Prod.mk.injEq, stamped, Event.filed]
    constructor
    · rintro ⟨rfl, rfl⟩
      exact ⟨fun f hf hm => hgood.1 f hf (Prod.ext_iff.1 hm).1 (Prod.ext_iff.1 hm).2, hgood.2,
        rfl, rfl⟩
    · rintro ⟨-, -, rfl, rfl⟩
      exact ⟨rfl, rfl⟩

theorem insertEvent_rows {e stored : Event} {version : Nat}
    (h : s.insertEvent e version = .ok (stored, t)) : Rows s t id [] [(e, version)] := by
  obtain ⟨hnew, hrec, -, rfl⟩ := insertEvent_eq_ok.1 h
  refine ⟨by simp, by simp [filing], by simp, ⟨id, [], by simp, by simp⟩, rfl, fun hs => ?_⟩
  refine { hs with
    marks := ?_, eventRecord := fun f hf => ?_, orderings := fun i f hf => ?_,
    eventDates := fun f hf => ?_ }
  · simp only [List.map_append, List.map_cons, List.map_nil, Event.filed_id, Event.filed_version]
    refine List.nodup_append.2 ⟨hs.marks, by simp, fun m hm n hn => ?_⟩
    obtain ⟨f, hf, rfl⟩ := List.mem_map.1 hm
    rw [List.mem_singleton.1 hn]
    exact hnew f hf
  · rcases List.mem_append.1 hf with hf | hf
    · exact hs.eventRecord f hf
    · rw [List.mem_singleton.1 hf]
      exact hrec
  · rw [List.getElem?_append] at hf
    split at hf
    · exact hs.orderings i f hf
    · rw [List.getElem?_singleton] at hf
      split at hf
      · cases hf
        simp only [Event.filed_ordering]
        omega
      · cases hf
  · rcases List.mem_append.1 hf with hf | hf
    · exact hs.eventDates f hf
    · rw [List.mem_singleton.1 hf]
      simp

theorem insertEvents_rows {version : Nat} {es : List Event}
    (h : s.insertEvents version es = .ok t) : Rows s t id [] (es.map (·, version)) := by
  induction es generalizing s with
  | nil =>
    cases h
    exact .refl _
  | cons e es ih =>
    obtain ⟨⟨stored, u⟩, hu, ht⟩ := bind_eq_ok.1 h
    exact (insertEvent_rows hu).trans (ih ht)

theorem alterBundles_rows {alter : Bundle → Bundle}
    (h : ∀ b, (alter b).id = b.id ∧ (alter b).key = b.key ∧ (alter b).account = b.account)
    (hdates : ∀ b, b.start.floorMillis = b.start → (alter b).start.floorMillis = (alter b).start) :
    Rows s { s with bundles := s.bundles.map alter } id [] [] where
  records := by simp
  events := by simp [filing]
  keeps := by simp
  bundles := ⟨alter, [], by simp, h⟩
  locks := rfl
  tidy := fun hs =>
    { hs with
      bundleIds := by
        rw [List.map_map, show (·.id) ∘ alter = (·.id) from funext fun b => (h b).1]
        exact hs.bundleIds
      recordBundle := by
        intro r hr
        obtain ⟨b, hb, hid⟩ := hs.recordBundle r hr
        exact ⟨alter b, List.mem_map_of_mem hb, (h b).1.trans hid⟩
      bundleDates := List.forall_mem_map.2 fun b hb => hdates b (hs.bundleDates b hb) }

theorem touch_rows {bundle : BundleId} {now : Instant} (h : s.touch bundle now = .ok t) :
    Rows s t id [] [] := by
  unfold touch at h
  split at h
  · cases h
    exact alterBundles_rows (fun b => by split <;> simp) fun b hb => by split <;> exact hb
  · cases h

theorem touch_ok {bundle : BundleId} (now : Instant) (h : ∃ b ∈ s.bundles, b.id = bundle) :
    ∃ t, s.touch bundle now = .ok t := by
  unfold touch
  rw [if_pos (by simpa using h)]
  exact ⟨_, rfl⟩

theorem alterRecords_rows {change : SubscriptionRecord → SubscriptionRecord}
    (h : ∀ r, (change r).id = r.id ∧ (change r).bundle = r.bundle ∧
      (change r).category = r.category) (hdates : ∀ r, r.InMillis → (change r).InMillis) :
    Rows s { s with records := s.records.map change } change [] [] where
  records := by simp
  events := by simp [filing]
  keeps := h
  bundles := ⟨id, [], by simp, by simp⟩
  locks := rfl
  tidy := fun hs =>
    { hs with
      recordIds := by
        rw [List.map_map, show (·.id) ∘ change = (·.id) from funext fun r => (h r).1]
        exact hs.recordIds
      recordBundle := by
        intro r hr
        obtain ⟨q, hq, rfl⟩ := List.mem_map.1 hr
        rw [(h q).2.1]
        exact hs.recordBundle q hq
      eventRecord := by
        intro e he
        obtain ⟨r, hr, hid⟩ := hs.eventRecord e he
        exact ⟨change r, List.mem_map_of_mem hr, (h r).1.trans hid⟩
      recordDates := List.forall_mem_map.2 fun r hr => hdates r (hs.recordDates r hr) }

/-! ## Bundles and subscriptions -/

theorem requireRecord_eq_ok {sub : SubscriptionId} {r : SubscriptionRecord} :
    s.requireRecord sub = .ok r ↔ s.record? sub = some r := by
  unfold requireRecord
  split <;> simp_all

theorem createSubscription_rows {sub stored : Subscription} {now : Instant}
    (h : s.createSubscription sub now = .ok (stored, t)) :
    Rows s t id [sub.toSubscriptionRecord.filed 1] (sub.events.map (·, 1)) := by
  simp only [createSubscription, bind_eq_ok] at h
  obtain ⟨u, hu, v, hv, w, hw, h⟩ := h
  have hrows := ((insertRecord_rows hu).trans (insertEvents_rows hv)).trans (touch_rows hw)
  split at h
  · cases h
    simpa using hrows
  · cases h

theorem setChargedThrough_rows {sub : SubscriptionId} {date : Option Instant}
    (h : s.setChargedThrough sub date = .ok t) :
    ∃ change, Rows s t change [] [] ∧
      ∀ r, ∃ paid, change r = { r with chargedThrough := paid } := by
  unfold setChargedThrough at h
  split at h
  · cases h
    refine ⟨_, alterRecords_rows (fun r => by split <;> simp) fun r hr => ?_, fun r => ?_⟩
    · split
      · refine { hr with chargedThrough := fun d hd => ?_ }
        obtain ⟨paid, -, rfl⟩ := Option.map_eq_some_iff.1 hd
        exact paid.floorMillis_floorMillis
      · exact hr
    · split
      · exact ⟨_, rfl⟩
      · exact ⟨r.chargedThrough, rfl⟩
  · cases h

/-! ## Appending events -/

/-- The version at which a subscription is written to. -/
def versionOf (s : Store) (sub : SubscriptionId) : Nat := ((s.record? sub).map (·.version)).getD 0

theorem versionOf_eq {sub : SubscriptionId} {r : SubscriptionRecord} (h : s.record? sub = some r) :
    s.versionOf sub = r.version := by
  simp [versionOf, h]

/-- Events with the versions of their subscriptions. -/
def atVersions (s : Store) (es : List Event) : List (Event × Nat) :=
  es.map fun e => (e, s.versionOf e.subscription)

theorem atVersions_congr (h : t.records = s.records) (es : List Event) :
    t.atVersions es = s.atVersions es := by
  unfold atVersions versionOf record?
  rw [h]

theorem atVersions_cons (e : Event) (es : List Event) :
    s.atVersions (e :: es) = s.atVersions [e] ++ s.atVersions es :=
  rfl

theorem appendOne_rows {bundle : BundleId} {e stored : Event}
    (h : s.appendOne bundle e = .ok (stored, t)) :
    Rows s t id [] (s.atVersions [e]) ∧
      ∃ r, s.record? e.subscription = some r ∧ r.bundle = bundle := by
  simp only [appendOne, bind_eq_ok, requireRecord_eq_ok, guard_eq_ok] at h
  obtain ⟨r, hr, hb, h⟩ := h
  refine ⟨?_, r, hr, not_not.1 hb⟩
  rw [atVersions, List.map_singleton, versionOf_eq hr]
  exact insertEvent_rows h

theorem appendAll_rows {bundle : BundleId} {es stored : List Event}
    (h : s.appendAll bundle es = .ok (stored, t)) :
    Rows s t id [] (s.atVersions es) ∧
      ∀ e ∈ es, ∃ r, s.record? e.subscription = some r ∧ r.bundle = bundle := by
  induction es generalizing s stored with
  | nil =>
    cases h
    exact ⟨.refl _, by simp⟩
  | cons e es ih =>
    simp only [appendAll, bind_eq_ok, pure_eq_ok, Prod.mk.injEq] at h
    obtain ⟨⟨first, u⟩, hu, ⟨rest, w⟩, hw, rfl, rfl⟩ := h
    obtain ⟨hrow, hrec⟩ := appendOne_rows hu
    obtain ⟨hrows, hrecs⟩ := ih hw
    have hsame : u.records = s.records := by simpa using hrow.records
    rw [atVersions_congr hsame] at hrows
    refine ⟨by simpa [← atVersions_cons] using hrow.trans hrows, fun e' he' => ?_⟩
    rcases List.mem_cons.1 he' with rfl | he'
    · exact hrec
    · have := hrecs e' he'
      rwa [record?, hsame] at this

theorem appendToBundle_rows {bundle : BundleId} {es stored : List Event} {now : Instant}
    (h : s.appendToBundle bundle es now = .ok (stored, t)) :
    Rows s t id [] (s.atVersions es) ∧
      ∀ e ∈ es, ∃ r, s.record? e.subscription = some r ∧ r.bundle = bundle := by
  simp only [appendToBundle, bind_eq_ok, pure_eq_ok, Prod.mk.injEq] at h
  obtain ⟨⟨_, u⟩, hu, w, hw, -, rfl⟩ := h
  obtain ⟨hrows, hrecs⟩ := appendAll_rows hu
  exact ⟨by simpa using hrows.trans (touch_rows hw), hrecs⟩

theorem append_rows {sub : SubscriptionId} {es stored : List Event} {now : Instant}
    (h : s.append sub es now = .ok (stored, t)) :
    Rows s t id [] (s.atVersions es) ∧ ∀ e ∈ es, e.subscription = sub := by
  unfold append at h
  split at h
  · cases h
  next hstray =>
    simp only [bind_eq_ok] at h
    obtain ⟨r, -, h⟩ := h
    exact ⟨(appendToBundle_rows h).1, fun e he => by
      simpa using List.find?_eq_none.1 hstray e he⟩

theorem appendEach_rows {now : Instant} {es : List Event} (h : s.appendEach now es = .ok t) :
    Rows s t id [] (s.atVersions es) ∧ ∀ e ∈ es, ∃ r, s.record? e.subscription = some r := by
  induction es generalizing s with
  | nil =>
    cases h
    exact ⟨.refl _, by simp⟩
  | cons e es ih =>
    simp only [appendEach, bind_eq_ok, requireRecord_eq_ok] at h
    obtain ⟨r, hr, ⟨_, u⟩, hu, v, hv, h⟩ := h
    have hrow := (appendOne_rows hu).1.trans (touch_rows hv)
    obtain ⟨hrows, hrecs⟩ := ih h
    have hsame : v.records = s.records := by simpa using hrow.records
    rw [atVersions_congr hsame] at hrows
    refine ⟨by simpa [← atVersions_cons] using hrow.trans hrows, fun e' he' => ?_⟩
    rcases List.mem_cons.1 he' with rfl | he'
    · exact ⟨r, hr⟩
    · have := hrecs e' he'
      rwa [record?, hsame] at this

/-! ## Repairs -/

/-- A record revised by the repair of its subscription. -/
def revise (sub : RepairedSubscription) (q : SubscriptionRecord) : SubscriptionRecord :=
  if q.id == sub.id then
    { q with
      version := q.version + 1
      start := sub.start.floorMillis
      bundleStart := sub.bundleStart.floorMillis
      alignStart := sub.alignStart.floorMillis }
  else q

@[simp] theorem revise_id (sub : RepairedSubscription) (q : SubscriptionRecord) :
    (revise sub q).id = q.id := by
  unfold revise
  split <;> rfl

theorem revise_keeps (sub : RepairedSubscription) (q : SubscriptionRecord) :
    (revise sub q).id = q.id ∧ (revise sub q).bundle = q.bundle ∧
      (revise sub q).category = q.category := by
  unfold revise
  split <;> simp

theorem revise_inMillis (sub : RepairedSubscription) {q : SubscriptionRecord} (h : q.InMillis) :
    (revise sub q).InMillis := by
  unfold revise
  split
  · exact ⟨Instant.floorMillis_floorMillis _, Instant.floorMillis_floorMillis _,
      Instant.floorMillis_floorMillis _, h.chargedThrough⟩
  · exact h

theorem revise_of_ne {sub : RepairedSubscription} {q : SubscriptionRecord} (h : q.id ≠ sub.id) :
    revise sub q = q := by
  simp [revise, h]

/-- A record revised by the repairs of all subscriptions. -/
def reviseAll (subs : List RepairedSubscription) (q : SubscriptionRecord) : SubscriptionRecord :=
  subs.foldl (fun q sub => revise sub q) q

theorem reviseAll_of_forall_ne {subs : List RepairedSubscription} {q : SubscriptionRecord}
    (h : ∀ sub ∈ subs, q.id ≠ sub.id) : reviseAll subs q = q := by
  induction subs with
  | nil => rfl
  | cons sub subs ih =>
    rw [reviseAll, List.foldl_cons, revise_of_ne (h sub (by simp))]
    exact ih fun sub' hsub' => h sub' (by simp [hsub'])

/-- Of repairs of different subscriptions, its own alone revises a record. -/
theorem reviseAll_of_mem {subs : List RepairedSubscription} {sub : RepairedSubscription}
    {q : SubscriptionRecord} (hnodup : (subs.map (·.id)).Nodup) (hsub : sub ∈ subs)
    (h : q.id = sub.id) : reviseAll subs q = revise sub q := by
  induction subs generalizing q with
  | nil => cases hsub
  | cons sub' subs ih =>
    obtain ⟨hnew, hnodup⟩ := List.nodup_cons.1 hnodup
    rw [reviseAll, List.foldl_cons]
    rcases List.mem_cons.1 hsub with rfl | hsub
    · refine reviseAll_of_forall_ne fun sub' hsub' hid => hnew ?_
      rw [revise_id, h] at hid
      exact List.mem_map.2 ⟨sub', hsub', hid.symm⟩
    · have hne : q.id ≠ sub'.id := fun hid =>
        hnew (List.mem_map.2 ⟨sub, hsub, h.symm.trans hid⟩)
      rw [revise_of_ne hne]
      exact ih hnodup hsub h

/-- The events that repairs write, each at the version behind that of its subscription. -/
def revised (s : Store) (subs : List RepairedSubscription) : List (Event × Nat) :=
  subs.flatMap fun sub => sub.events.map (·, s.versionOf sub.id + 1)

theorem writeVersion_rows {bundle : BundleId} {sub : RepairedSubscription}
    (hids : (s.records.map (·.id)).Nodup) (h : s.writeVersion bundle sub = .ok t) :
    Rows s t (revise sub) [] (sub.events.map (·, s.versionOf sub.id + 1)) ∧
      ∃ r, s.record? sub.id = some r ∧ r.bundle = bundle := by
  simp only [writeVersion, bind_eq_ok, pure_eq_ok, requireRecord_eq_ok, guard_eq_ok] at h
  obtain ⟨r, hr, hb, u, hu, rfl⟩ := h
  refine ⟨?_, r, hr, not_not.1 hb⟩
  have hrows := insertEvents_rows hu
  have hsame : u.records = s.records := by simpa using hrows.records
  have hmap : u.setVersion sub (r.version + 1) =
      { u with records := u.records.map (revise sub) } := by
    refine congrArg (fun rs => { u with records := rs }) (List.map_congr_left fun q hq => ?_)
    unfold revise
    split
    next hid =>
      have hid := beq_iff_eq.1 hid
      rw [List.inj_on_of_nodup_map hids (hsame ▸ hq) (mem_of_record? hr).1
        (hid.trans (mem_of_record? hr).2.symm)]
    next => rfl
  rw [hmap, versionOf_eq hr]
  simpa using hrows.trans (alterRecords_rows (revise_keeps sub) fun _ => revise_inMillis sub)

theorem versionOf_revise {sub : RepairedSubscription} {sub' : SubscriptionId}
    (h : t.records = s.records.map (revise sub)) (hne : sub' ≠ sub.id) :
    t.versionOf sub' = s.versionOf sub' := by
  have hfind : (t.records.find? (·.id == sub')) = (s.records.find? (·.id == sub')).map
      (revise sub) := by
    rw [h, List.find?_map]
    congr 2
    funext q
    simp
  unfold versionOf record?
  rw [hfind]
  cases hf : s.records.find? (·.id == sub') with
  | none => rfl
  | some q =>
    have hid : q.id = sub' := by simpa using List.find?_some hf
    rw [Option.map_some, revise_of_ne (hid.symm ▸ hne)]

theorem revised_revise {sub : RepairedSubscription} {subs : List RepairedSubscription}
    (h : t.records = s.records.map (revise sub)) (hnew : sub.id ∉ subs.map (·.id)) :
    t.revised subs = s.revised subs := by
  simp only [revised, List.flatMap_def]
  congr 1
  apply List.map_congr_left
  intro sub' hsub'
  rw [versionOf_revise h fun hid => hnew (List.mem_map.2 ⟨sub', hsub', hid⟩)]

theorem writeVersions_owned {bundle : BundleId} {subs : List RepairedSubscription}
    (hids : (s.records.map (·.id)).Nodup) (h : s.writeVersions bundle subs = .ok t) :
    ∀ sub ∈ subs, ∃ r ∈ s.records, r.id = sub.id ∧ r.bundle = bundle := by
  induction subs generalizing s with
  | nil => simp
  | cons sub subs ih =>
    obtain ⟨u, hu, h⟩ := bind_eq_ok.1 h
    obtain ⟨hrow, r, hr, hb⟩ := writeVersion_rows hids hu
    intro sub' hsub'
    rcases List.mem_cons.1 hsub' with rfl | hsub'
    · exact ⟨r, (mem_of_record? hr).1, (mem_of_record? hr).2, hb⟩
    · obtain ⟨q, hq, hid, hb⟩ := ih (hrow.recordIds hids) h sub' hsub'
      have hrecords : u.records = s.records.map (revise sub) := by simpa using hrow.records
      obtain ⟨q', hq', rfl⟩ := List.mem_map.1 (hrecords ▸ hq)
      exact ⟨q', hq', (revise_id sub q').symm.trans hid, (revise_keeps sub q').2.1 ▸ hb⟩

theorem writeVersions_rows {bundle : BundleId} {subs : List RepairedSubscription} (hs : s.Tidy)
    (hnodup : (subs.map (·.id)).Nodup) (h : s.writeVersions bundle subs = .ok t) :
    Rows s t (reviseAll subs) [] (s.revised subs) ∧
      ∀ sub ∈ subs, ∃ r ∈ s.records, r.id = sub.id ∧ r.bundle = bundle := by
  refine ⟨?_, writeVersions_owned hs.recordIds h⟩
  induction subs generalizing s with
  | nil =>
    cases h
    exact .refl _
  | cons sub subs ih =>
    obtain ⟨hnew, hnodup⟩ := List.nodup_cons.1 hnodup
    obtain ⟨u, hu, h⟩ := bind_eq_ok.1 h
    obtain ⟨hrow, -⟩ := writeVersion_rows hs.recordIds hu
    have hrows := ih (hrow.tidy hs) hnodup h
    have hrecords : u.records = s.records.map (revise sub) := by simpa using hrow.records
    rw [revised_revise hrecords hnew] at hrows
    exact hrow.trans hrows

theorem setBundleStart_rows (bundle : BundleId) (start : Option Instant) :
    Rows s (s.setBundleStart bundle start) id [] [] := by
  unfold setBundleStart
  split
  · exact .refl s
  · refine alterBundles_rows (fun b => by split <;> simp) fun b hb => ?_
    split
    · exact Instant.floorMillis_floorMillis _
    · exact hb

/-- A commit that succeeds was prepared on the view of the store, and files nothing but the new
versions. -/
theorem commitRepair_writes {commit : RepairCommit} {now : Instant} {record : RepairRecord}
    (h : s.commitRepair commit now = .ok (record, t)) :
    s.viewOf commit.bundle = .ok commit.expectedView ∧
      ∃ u, s.writeVersions commit.bundle commit.subscriptions = .ok u ∧ Rows u t id [] [] := by
  simp only [commitRepair, bind_eq_ok, pure_eq_ok, guard_eq_ok] at h
  obtain ⟨current, hview, hsame, u, hu, v, hv, -, rfl⟩ := h
  have hrest : Rows u v id [] [] := by simpa using (setBundleStart_rows _ _).trans (touch_rows hv)
  exact ⟨not_not.1 hsame ▸ hview, u, hu, { hrest with tidy := fun hs => { hrest.tidy hs with } }⟩

theorem commitRepair_rows {commit : RepairCommit} {now : Instant} {record : RepairRecord}
    (hs : s.Tidy) (hnodup : (commit.subscriptions.map (·.id)).Nodup)
    (h : s.commitRepair commit now = .ok (record, t)) :
    Rows s t (reviseAll commit.subscriptions) [] (s.revised commit.subscriptions) ∧
      s.viewOf commit.bundle = .ok commit.expectedView ∧
      ∀ sub ∈ commit.subscriptions, ∃ r ∈ s.records, r.id = sub.id ∧ r.bundle = commit.bundle := by
  obtain ⟨hview, u, hu, hrest⟩ := commitRepair_writes h
  obtain ⟨hrows, hrecs⟩ := writeVersions_rows hs hnodup hu
  exact ⟨by simpa using hrows.trans hrest, hview, hrecs⟩

/-! ## Repairs that succeed -/

theorem insertEvents_ok {version : Nat} {es : List Event}
    (hrec : ∀ e ∈ es, ∃ r ∈ s.records, r.id = e.subscription)
    (hmarks : (s.events.map (fun e => (e.id, e.version)) ++
      es.map fun e => (e.id, version)).Nodup) : ∃ t, s.insertEvents version es = .ok t := by
  induction es generalizing s with
  | nil => exact ⟨s, rfl⟩
  | cons e es ih =>
    have hnew (f : Event) (hf : f ∈ s.events) : (f.id, f.version) ≠ (e.id, version) :=
      (List.nodup_append.1 hmarks).2.2 _ (List.mem_map_of_mem hf) _ (by simp)
    have hone := (insertEvent_eq_ok (s := s) (e := e)).2
      ⟨hnew, hrec e (by simp), rfl, rfl⟩
    obtain ⟨t, ht⟩ := ih
      (s := { s with events := s.events ++ [e.filed version (s.events.length + 1)] })
      (fun e' he' => hrec e' (by simp [he'])) (by simpa using hmarks)
    exact ⟨t, bind_eq_ok.2 ⟨_, hone, ht⟩⟩

theorem writeVersions_ok {bundle : BundleId} {subs : List RepairedSubscription} (hs : s.Tidy)
    (hnodup : (subs.map (·.id)).Nodup)
    (hrec : ∀ sub ∈ subs, ∃ r ∈ s.records, r.id = sub.id ∧ r.bundle = bundle)
    (hown : ∀ sub ∈ subs, ∀ e ∈ sub.events, e.subscription = sub.id)
    (hmarks : (s.events.map (fun e => (e.id, e.version)) ++
      (s.revised subs).map fun w => (w.1.id, w.2)).Nodup) :
    ∃ t, s.writeVersions bundle subs = .ok t := by
  induction subs generalizing s with
  | nil => exact ⟨s, rfl⟩
  | cons sub subs ih =>
    obtain ⟨hnew, hnodup⟩ := List.nodup_cons.1 hnodup
    obtain ⟨r, hr, hid, hb⟩ := hrec sub (by simp)
    have hrecord : s.record? sub.id = some r := hid ▸ hs.record?_eq hr
    have hsplit : (s.revised (sub :: subs)).map (fun w => (w.1.id, w.2)) =
        sub.events.map (fun e => (e.id, r.version + 1)) ++
          (s.revised subs).map fun w => (w.1.id, w.2) := by
      simp [revised, versionOf_eq hrecord, Function.comp_def]
    rw [hsplit, ← List.append_assoc] at hmarks
    have hinsert : ∃ u, s.insertEvents (r.version + 1) sub.events = .ok u :=
      insertEvents_ok (fun e he => ⟨r, hr, hid.trans (hown sub (by simp) e he).symm⟩)
        (List.nodup_append.1 hmarks).1
    obtain ⟨u, hu⟩ := hinsert
    have hone : ∃ v, s.writeVersion bundle sub = .ok v := by
      simp only [writeVersion, bind_eq_ok, pure_eq_ok, requireRecord_eq_ok, guard_eq_ok]
      exact ⟨_, r, hrecord, not_not.2 hb, u, hu, rfl⟩
    obtain ⟨v, hv⟩ := hone
    obtain ⟨hrows, -⟩ := writeVersion_rows hs.recordIds hv
    have hrecords : v.records = s.records.map (revise sub) := by simpa using hrows.records
    have hevents : v.events.map (fun e => (e.id, e.version)) =
        s.events.map (fun e => (e.id, e.version)) ++
          sub.events.map (fun e => (e.id, r.version + 1)) := by
      rw [hrows.events, List.map_append, marks_filing, versionOf_eq hrecord]
      simp [Function.comp_def]
    obtain ⟨t, ht⟩ := ih (hrows.tidy hs) hnodup (fun sub' hsub' => by
        obtain ⟨q, hq, hqid, hqb⟩ := hrec sub' (by simp [hsub'])
        refine ⟨revise sub q, ?_, (revise_id sub q).trans hqid,
          ((revise_keeps sub q).2.1).trans hqb⟩
        rw [hrecords]
        exact List.mem_map_of_mem hq)
      (fun sub' hsub' => hown sub' (by simp [hsub']))
      (by rwa [revised_revise hrecords hnew, hevents])
    exact ⟨t, bind_eq_ok.2 ⟨v, hv, ht⟩⟩

/-- A repair is committed if it was prepared on the view of the store and no mark occurs twice. -/
theorem commitRepair_ok {commit : RepairCommit} (hs : s.Tidy)
    (hview : s.viewOf commit.bundle = .ok commit.expectedView)
    (hnodup : (commit.subscriptions.map (·.id)).Nodup)
    (hrec : ∀ sub ∈ commit.subscriptions, ∃ r ∈ s.records, r.id = sub.id ∧ r.bundle = commit.bundle)
    (hown : ∀ sub ∈ commit.subscriptions, ∀ e ∈ sub.events, e.subscription = sub.id)
    (hmarks : (s.events.map (fun e => (e.id, e.version)) ++
      (s.revised commit.subscriptions).map fun w => (w.1.id, w.2)).Nodup) (now : Instant) :
    ∃ record t, s.commitRepair commit now = .ok (record, t) := by
  obtain ⟨u, hu⟩ := writeVersions_ok hs hnodup hrec hown hmarks
  have hbundle : ∃ b ∈ s.bundles, b.id = commit.bundle := by
    unfold viewOf at hview
    split at hview
    · cases hview
    next b hb => exact ⟨b, List.mem_of_find?_eq_some hb, by simpa using List.find?_some hb⟩
  have hrows := (writeVersions_rows hs hnodup hu).1.trans
    (setBundleStart_rows commit.bundle commit.bundleStart)
  obtain ⟨v, hv⟩ := touch_ok (s := u.setBundleStart commit.bundle commit.bundleStart) now
    (hrows.bundle hbundle)
  simp only [commitRepair, bind_eq_ok, pure_eq_ok, guard_eq_ok]
  exact ⟨_, _, _, hview, not_not.2 rfl, u, hu, v, hv, rfl⟩

/-! ## Whole bundles -/

/-- The records of subscriptions written from scratch. -/
def scratchRecords (subs : List Subscription) : List SubscriptionRecord :=
  subs.map fun sub => sub.toSubscriptionRecord.filed 1

/-- The events of subscriptions written from scratch. -/
def scratchEvents (subs : List Subscription) : List (Event × Nat) :=
  subs.flatMap fun sub => sub.events.map (·, 1)

theorem insertSubscriptions_rows {subs : List Subscription}
    (h : s.insertSubscriptions subs = .ok t) :
    Rows s t id (scratchRecords subs) (scratchEvents subs) := by
  induction subs generalizing s with
  | nil =>
    cases h
    exact .refl _
  | cons sub subs ih =>
    simp only [insertSubscriptions, bind_eq_ok] at h
    obtain ⟨u, hu, v, hv, h⟩ := h
    simpa [scratchRecords, scratchEvents] using
      ((insertRecord_rows hu).trans (insertEvents_rows hv)).trans (ih h)

theorem insertImages_rows {now : Instant} {images : List BundleImage}
    (h : s.insertImages now images = .ok t) :
    Rows s t id (scratchRecords (images.flatMap (·.subscriptions)))
      (scratchEvents (images.flatMap (·.subscriptions))) := by
  induction images generalizing s with
  | nil =>
    cases h
    exact .refl _
  | cons image images ih =>
    simp only [insertImages, bind_eq_ok] at h
    obtain ⟨u, hu, v, hv, w, hw, h⟩ := h
    simpa [scratchRecords, scratchEvents] using
      (((insertBundle_rows hu).trans (insertSubscriptions_rows hv)).trans (touch_rows hw)).trans
        (ih h)

/-- Records behind those there are do not change the versions of the latter. -/
theorem versionOf_append {fresh : List SubscriptionRecord} {sub : SubscriptionId}
    (h : t.records = s.records ++ fresh) (hsub : ∃ r ∈ s.records, r.id = sub) :
    t.versionOf sub = s.versionOf sub := by
  obtain ⟨r, hr, rfl⟩ := hsub
  unfold versionOf record?
  rw [h, List.find?_append]
  cases hf : s.records.find? (·.id == r.id) with
  | none => exact absurd (List.find?_eq_none.1 hf r hr) (by simp)
  | some q => rfl

theorem commitBundles_rows {images : List BundleImage} {appended : List Event} {now : Instant}
    (hold : ∀ e ∈ appended, ∃ r ∈ s.records, r.id = e.subscription)
    (h : s.commitBundles images appended now = .ok t) :
    Rows s t id (scratchRecords (images.flatMap (·.subscriptions)))
      (scratchEvents (images.flatMap (·.subscriptions)) ++ s.atVersions appended) := by
  obtain ⟨u, hu, h⟩ := bind_eq_ok.1 h
  have himages := insertImages_rows hu
  have hversions : u.atVersions appended = s.atVersions appended := by
    apply List.map_congr_left
    intro e he
    rw [versionOf_append (by simpa using himages.records) (hold e he)]
  rw [← hversions]
  simpa using himages.trans (appendEach_rows h).1

end Store

/-- Events that could be appended are of subscriptions that were there: the store that is left knows
the subscription, and its records are the old ones. -/
theorem Rows.known_of_appended {s t : Store} {es : List Event}
    (h : Rows s t id [] (s.atVersions es)) (hs : s.Tidy) :
    ∀ e ∈ es, ∃ r ∈ s.records, r.id = e.subscription := by
  intro e he
  obtain ⟨k, -, hf⟩ := exists_mem_filing (n := s.events.length)
    (List.mem_map_of_mem (f := fun e => (e, s.versionOf e.subscription)) he)
  obtain ⟨r, hr, hid⟩ := (h.tidy hs).eventRecord _ (h.events ▸ List.mem_append_right _ hf)
  have hsame : t.records = s.records := by simpa using h.records
  exact ⟨r, hsame ▸ hr, hid⟩

end Tenure
