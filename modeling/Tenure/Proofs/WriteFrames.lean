import Tenure.Proofs.Writes

/-!
# What writes leave alone

The rows of bundles, subscriptions and events are one thing, locks and the records of repairs
another: no write of the former touches the latter (`Aside`), whatever the store. A committed
repair is the one write that adds a record, and the record lists the subscriptions it was
committed for (`commitRepair_records`).
-/

namespace Tenure

/-- The locks and the records of repairs are as they were. -/
structure Aside (s t : Store) : Prop where
  locks : t.locks = s.locks
  repairs : t.repairs = s.repairs

namespace Aside

variable {s t u : Store}

theorem refl (s : Store) : Aside s s := ⟨rfl, rfl⟩

theorem trans (h : Aside s t) (h' : Aside t u) : Aside s u :=
  ⟨h'.locks.trans h.locks, h'.repairs.trans h.repairs⟩

end Aside

/-- A record of what was committed to which bundle. -/
structure RepairRecord.Covers (k : RepairRecord) (commit : RepairCommit) : Prop where
  bundle : k.bundle = commit.bundle
  subscriptions : k.subscriptions = commit.subscriptions.map (·.id)
  eventCount : k.eventCount = (commit.subscriptions.flatMap (·.events)).length
  checksum : k.checksum = Blake3.hash
    (Store.checksumInput (commit.subscriptions.map fun sub => (sub.id, sub.events)))

namespace Store

variable {s t : Store}

/-! ## Single rows -/

theorem insertBundle_aside {b : Bundle} (h : s.insertBundle b = .ok t) : Aside s t := by
  unfold insertBundle at h
  split at h <;> cases h
  exact ⟨rfl, rfl⟩

theorem insertRecord_aside {r : SubscriptionRecord} {version : Nat}
    (h : s.insertRecord r version = .ok t) : Aside s t := by
  unfold insertRecord at h
  split at h <;> cases h
  exact ⟨rfl, rfl⟩

theorem insertEvent_aside {e stored : Event} {version : Nat}
    (h : s.insertEvent e version = .ok (stored, t)) : Aside s t := by
  obtain ⟨-, -, -, rfl⟩ := insertEvent_eq_ok.1 h
  exact ⟨rfl, rfl⟩

theorem insertEvents_aside {version : Nat} {es : List Event}
    (h : s.insertEvents version es = .ok t) : Aside s t := by
  induction es generalizing s with
  | nil =>
    cases h
    exact .refl _
  | cons e es ih =>
    obtain ⟨⟨stored, u⟩, hu, ht⟩ := bind_eq_ok.1 h
    exact (insertEvent_aside hu).trans (ih ht)

theorem touch_aside {bundle : BundleId} {now : Instant} (h : s.touch bundle now = .ok t) :
    Aside s t := by
  unfold touch at h
  split at h <;> cases h
  exact ⟨rfl, rfl⟩

theorem touch_bundle {bundle : BundleId} {now : Instant} (h : s.touch bundle now = .ok t) :
    ∃ b ∈ t.bundles, b.id = bundle := by
  unfold touch at h
  split at h <;> cases h
  next hbundle =>
    obtain ⟨b, hb, hid⟩ := List.any_eq_true.1 hbundle
    refine ⟨_, List.mem_map_of_mem hb, ?_⟩
    rw [if_pos hid]
    exact beq_iff_eq.1 hid

theorem setBundleStart_aside (bundle : BundleId) (start : Option Instant) :
    Aside s (s.setBundleStart bundle start) := by
  unfold setBundleStart
  split <;> exact ⟨rfl, rfl⟩

/-! ## Subscriptions and events -/

theorem createSubscription_aside {sub stored : Subscription} {now : Instant}
    (h : s.createSubscription sub now = .ok (stored, t)) : Aside s t := by
  simp only [createSubscription, bind_eq_ok] at h
  obtain ⟨u, hu, v, hv, w, hw, h⟩ := h
  have hrows := ((insertRecord_aside hu).trans (insertEvents_aside hv)).trans (touch_aside hw)
  split at h <;> cases h
  exact hrows

theorem setChargedThrough_aside {sub : SubscriptionId} {date : Option Instant}
    (h : s.setChargedThrough sub date = .ok t) : Aside s t := by
  unfold setChargedThrough at h
  split at h <;> cases h
  exact ⟨rfl, rfl⟩

theorem appendOne_aside {bundle : BundleId} {e stored : Event}
    (h : s.appendOne bundle e = .ok (stored, t)) : Aside s t := by
  simp only [appendOne, bind_eq_ok, guard_eq_ok] at h
  obtain ⟨_, -, -, h⟩ := h
  exact insertEvent_aside h

theorem appendAll_aside {bundle : BundleId} {es stored : List Event}
    (h : s.appendAll bundle es = .ok (stored, t)) : Aside s t := by
  induction es generalizing s stored with
  | nil =>
    cases h
    exact .refl _
  | cons e es ih =>
    simp only [appendAll, bind_eq_ok, pure_eq_ok, Prod.mk.injEq] at h
    obtain ⟨⟨_, u⟩, hu, ⟨_, w⟩, hw, -, rfl⟩ := h
    exact (appendOne_aside hu).trans (ih hw)

theorem appendToBundle_aside {bundle : BundleId} {es stored : List Event} {now : Instant}
    (h : s.appendToBundle bundle es now = .ok (stored, t)) : Aside s t := by
  simp only [appendToBundle, bind_eq_ok, pure_eq_ok, Prod.mk.injEq] at h
  obtain ⟨⟨_, u⟩, hu, w, hw, -, rfl⟩ := h
  exact (appendAll_aside hu).trans (touch_aside hw)

theorem append_aside {sub : SubscriptionId} {es stored : List Event} {now : Instant}
    (h : s.append sub es now = .ok (stored, t)) : Aside s t := by
  unfold append at h
  split at h
  · cases h
  · simp only [bind_eq_ok] at h
    obtain ⟨_, -, h⟩ := h
    exact appendToBundle_aside h

theorem appendEach_aside {now : Instant} {es : List Event} (h : s.appendEach now es = .ok t) :
    Aside s t := by
  induction es generalizing s with
  | nil =>
    cases h
    exact .refl _
  | cons e es ih =>
    simp only [appendEach, bind_eq_ok] at h
    obtain ⟨_, -, ⟨_, u⟩, hu, v, hv, h⟩ := h
    exact ((appendOne_aside hu).trans (touch_aside hv)).trans (ih h)

/-! ## Whole bundles -/

theorem insertSubscriptions_aside {subs : List Subscription}
    (h : s.insertSubscriptions subs = .ok t) : Aside s t := by
  induction subs generalizing s with
  | nil =>
    cases h
    exact .refl _
  | cons sub subs ih =>
    simp only [insertSubscriptions, bind_eq_ok] at h
    obtain ⟨u, hu, v, hv, h⟩ := h
    exact ((insertRecord_aside hu).trans (insertEvents_aside hv)).trans (ih h)

theorem insertImages_aside {now : Instant} {images : List BundleImage}
    (h : s.insertImages now images = .ok t) : Aside s t := by
  induction images generalizing s with
  | nil =>
    cases h
    exact .refl _
  | cons image images ih =>
    simp only [insertImages, bind_eq_ok] at h
    obtain ⟨u, hu, v, hv, w, hw, h⟩ := h
    exact (((insertBundle_aside hu).trans (insertSubscriptions_aside hv)).trans
      (touch_aside hw)).trans (ih h)

theorem commitBundles_aside {images : List BundleImage} {appended : List Event} {now : Instant}
    (h : s.commitBundles images appended now = .ok t) : Aside s t := by
  obtain ⟨u, hu, h⟩ := bind_eq_ok.1 h
  exact (insertImages_aside hu).trans (appendEach_aside h)

/-! ## Repairs -/

theorem writeVersion_aside {bundle : BundleId} {sub : RepairedSubscription}
    (h : s.writeVersion bundle sub = .ok t) : Aside s t := by
  simp only [writeVersion, bind_eq_ok, pure_eq_ok, guard_eq_ok] at h
  obtain ⟨_, -, -, u, hu, rfl⟩ := h
  have hrows := insertEvents_aside hu
  exact ⟨hrows.locks, hrows.repairs⟩

theorem writeVersions_aside {bundle : BundleId} {subs : List RepairedSubscription}
    (h : s.writeVersions bundle subs = .ok t) : Aside s t := by
  induction subs generalizing s with
  | nil =>
    cases h
    exact .refl _
  | cons sub subs ih =>
    obtain ⟨u, hu, h⟩ := bind_eq_ok.1 h
    exact (writeVersion_aside hu).trans (ih h)

/-- A commit leaves the locks alone, and adds a record of itself behind those there are. The bundle
that it was committed to exists. -/
theorem commitRepair_records {commit : RepairCommit} {now : Instant} {record : RepairRecord}
    (h : s.commitRepair commit now = .ok (record, t)) :
    t.locks = s.locks ∧ (∃ b ∈ t.bundles, b.id = commit.bundle) ∧ ∃ kept : RepairRecord,
      t.repairs = s.repairs ++ [kept] ∧ kept.Covers commit := by
  simp only [commitRepair, bind_eq_ok, pure_eq_ok, guard_eq_ok] at h
  obtain ⟨_, -, -, u, hu, v, hv, -, rfl⟩ := h
  have hall := ((writeVersions_aside hu).trans (setBundleStart_aside _ _)).trans (touch_aside hv)
  have hbundle := touch_bundle hv
  exact ⟨hall.locks, hbundle, _, congrArg (· ++ _) hall.repairs, rfl, rfl, rfl, rfl⟩

end Store

end Tenure
