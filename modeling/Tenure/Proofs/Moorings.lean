import Tenure.Proofs.ImportedTerms
import Tenure.Proofs.Carrying
import Tenure.Proofs.Rebuilding

/-!
# One anchor for a bundle

Phases may be laid out from the start of the bundle, and every subscription carries a copy of that
date. A plan change lays out from the copy of the subscription, a repair from that of the base plan.
The two agree as long as the copies do (`Workbench.bundleStart_of_basesOf`).

Each operation takes the copy from another place. A base plan starts the bundle with itself, an
add-on takes the *start* of the base plan, an import gives one date to all subscriptions of a
bundle, a transfer carries every copy over, and a repair that builds the base plan anew gives its
new start to all. So copies come to differ when

* an add-on is created under a base plan that has not started with its bundle, as one that was
  carried over has not;
* a base plan is created beside add-ons that were left without one;
* a transfer takes one base plan out of several along with a subscription of another.

There is no other way (`moored_unless_adrift`).
-/

namespace Tenure

/-! ## Bundles with one base plan -/

namespace Store

/-- The base-like subscriptions of a bundle. -/
def basesOf (s : Store) (b : BundleId) : List Subscription :=
  (s.subscriptionsOf b).filter (·.isBaseLike)

/-- In a bundle with one base-like subscription all have the start of the bundle that it has. -/
def Moored (s : Store) : Prop :=
  ∀ b base, s.basesOf b = [base] → ∀ sub ∈ s.subscriptionsOf b, sub.bundleStart = base.bundleStart

end Store

/-- A repair that builds no base plan anew lays out from the copy of the only one there is. -/
theorem Workbench.bundleStart_of_basesOf {s : Store} {b : BundleId} {base : Subscription}
    (hbase : s.basesOf b = [base]) (bundle : Bundle) (works : List Rework)
    (hre : Workbench.isBaseRecreated ⟨bundle, s.subscriptionsOf b, works⟩ = false) :
    Workbench.bundleStart ⟨bundle, s.subscriptionsOf b, works⟩ = base.bundleStart := by
  have hnone : (Workbench.editedBase? ⟨bundle, s.subscriptionsOf b, works⟩).filter
      (·.isRecreated) = none := by
    rw [Option.filter_eq_none_iff]
    intro w hw hrecreated
    rw [isBaseRecreated, hw, Option.any_some, hrecreated] at hre
    cases hre
  have hfirst : Workbench.base? ⟨bundle, s.subscriptionsOf b, works⟩ = some base := by
    rw [base?, ← List.head?_filter, show (s.subscriptionsOf b).filter _ = [base] from hbase]
    rfl
  rw [bundleStart, hnone, hfirst]

namespace Step

/-- The step creates an add-on in a bundle whose only base-like subscription does not start where
phases are laid out from. -/
def CreatesAddOnAdrift (st : Step) (s : Store) : Prop :=
  ∃ bundle spec sub base, st.call = .createSubscription bundle spec ∧
    st.engine.newSubscription st.context st.now bundle spec s = .ok sub ∧
    sub.isBaseLike = false ∧ s.basesOf bundle = [base] ∧ base.start ≠ base.bundleStart

/-- The step creates a base-like subscription in a bundle that has none, beside one with another
start of the bundle. -/
def CreatesBaseAdrift (st : Step) (s : Store) : Prop :=
  ∃ bundle spec sub, st.call = .createSubscription bundle spec ∧
    st.engine.newSubscription st.context st.now bundle spec s = .ok sub ∧
    sub.isBaseLike = true ∧ s.basesOf bundle = [] ∧
    ∃ other ∈ s.subscriptionsOf bundle, other.bundleStart ≠ sub.start.floorMillis

end Step

/-- The subscriptions that open on the destination. -/
def TransferRequest.opening (request : TransferRequest) (subs : List Subscription) :
    List Subscription :=
  (request.carried subs).filter fun sub => (sub.opening? request.date).isSome

namespace Step

/-- The step carries over just one base-like subscription, beside one with another start of the
bundle. -/
def TransfersAdrift (st : Step) (s : Store) : Prop :=
  ∃ request source base, st.call = .transfer request ∧
    s.bundleByKey? request.source request.key = some source ∧
    (request.opening (s.subscriptionsOf source.id)).filter (·.isBaseLike) = [base] ∧
    ∃ other ∈ request.opening (s.subscriptionsOf source.id),
      other.bundleStart ≠ base.bundleStart

/-- The step is carried out and leaves subscriptions of a bundle with different anchors. -/
def Unmoors (st : Step) (s : Store) : Prop :=
  st.Succeeds s ∧ (st.CreatesAddOnAdrift s ∨ st.CreatesBaseAdrift s ∨ st.TransfersAdrift s)

end Step

/-! ## Records -/

/-- The record is the only base-like one of its bundle. -/
structure SubscriptionRecord.LeadsIn (base : SubscriptionRecord) (rs : List SubscriptionRecord) :
    Prop where
  mem : base ∈ rs
  kind : base.category.isBaseLike = true
  sole : ∀ r ∈ rs, r.bundle = base.bundle → r.category.isBaseLike = true → r.id = base.id

/-- All records of a bundle have the start of the bundle that its only base-like one has. -/
def MooredRecords (rs : List SubscriptionRecord) : Prop :=
  ∀ base : SubscriptionRecord, base.LeadsIn rs →
    ∀ r ∈ rs, r.bundle = base.bundle → r.bundleStart = base.bundleStart

instance (base : SubscriptionRecord) (rs : List SubscriptionRecord) : Decidable (base.LeadsIn rs) :=
  decidable_of_iff (base ∈ rs ∧ base.category.isBaseLike = true ∧
      ∀ r ∈ rs, r.bundle = base.bundle → r.category.isBaseLike = true → r.id = base.id)
    ⟨fun h => ⟨h.1, h.2.1, h.2.2⟩, fun h => ⟨h.mem, h.kind, h.sole⟩⟩

instance (rs : List SubscriptionRecord) : Decidable (MooredRecords rs) :=
  decidable_of_iff (∀ base ∈ rs, base.LeadsIn rs → ∀ r ∈ rs, r.bundle = base.bundle →
      r.bundleStart = base.bundleStart)
    ⟨fun h base hbase => h base hbase.mem hbase, fun h base _ hbase => h base hbase⟩

section Records

variable {rs rs' fresh : List SubscriptionRecord} {base x : SubscriptionRecord}

theorem SubscriptionRecord.leadsIn_congr
    (h : ∀ r, r.bundle = base.bundle → (r ∈ rs ↔ r ∈ rs')) : base.LeadsIn rs ↔ base.LeadsIn rs' :=
  ⟨fun hl => ⟨(h base rfl).1 hl.mem, hl.kind, fun r hr hb => hl.sole r ((h r hb).2 hr) hb⟩,
    fun hl => ⟨(h base rfl).2 hl.mem, hl.kind, fun r hr hb => hl.sole r ((h r hb).1 hr) hb⟩⟩

/-- Records that change stay together if those of one leader are given one date. -/
theorem MooredRecords.map {change : SubscriptionRecord → SubscriptionRecord}
    (hkeeps : ∀ r, (change r).id = r.id ∧ (change r).bundle = r.bundle ∧
      (change r).category = r.category)
    (h : ∀ base : SubscriptionRecord, base.LeadsIn rs → ∀ r ∈ rs, r.bundle = base.bundle →
      (change r).bundleStart = (change base).bundleStart) : MooredRecords (rs.map change) := by
  intro x hx y hy hbundle
  obtain ⟨base, hbase, rfl⟩ := List.mem_map.1 hx.mem
  obtain ⟨r, hr, rfl⟩ := List.mem_map.1 hy
  have hkind (q : SubscriptionRecord) : (change q).category.isBaseLike = q.category.isBaseLike :=
    congrArg Category.isBaseLike (hkeeps q).2.2
  rw [(hkeeps r).2.1, (hkeeps base).2.1] at hbundle
  refine h base ⟨hbase, hkind base ▸ hx.kind, fun q hq hb hk => ?_⟩ r hr hbundle
  have hid := hx.sole _ (List.mem_map_of_mem hq)
    (by rw [(hkeeps q).2.1, (hkeeps base).2.1, hb]) (hkind q ▸ hk)
  rwa [(hkeeps q).1, (hkeeps base).1] at hid

/-- New bundles have nothing to do with those that are there. -/
theorem mooredRecords_append (hnew : ∀ x ∈ fresh, ∀ r ∈ rs, r.bundle ≠ x.bundle) :
    MooredRecords (rs ++ fresh) ↔ MooredRecords rs ∧ MooredRecords fresh := by
  have hold {base : SubscriptionRecord} (hbase : base ∈ rs) (r : SubscriptionRecord)
      (hb : r.bundle = base.bundle) :
      r ∈ rs ↔ r ∈ rs ++ fresh := by
    rw [List.mem_append, or_iff_left fun hr => hnew r hr base hbase hb.symm]
  have hadded {base : SubscriptionRecord} (hbase : base ∈ fresh) (r : SubscriptionRecord)
      (hb : r.bundle = base.bundle) :
      r ∈ fresh ↔ r ∈ rs ++ fresh := by
    rw [List.mem_append, or_iff_right fun hr => hnew base hbase r hr hb]
  constructor
  · intro h
    refine ⟨fun base hbase r hr hb => ?_, fun base hbase r hr hb => ?_⟩
    · exact h base ((SubscriptionRecord.leadsIn_congr (hold hbase.mem)).1 hbase) r
        (List.mem_append_left _ hr) hb
    · exact h base ((SubscriptionRecord.leadsIn_congr (hadded hbase.mem)).1 hbase) r
        (List.mem_append_right _ hr) hb
  · rintro ⟨hrs, hfresh⟩ base hbase r hr hb
    rcases List.mem_append.1 hbase.mem with hmem | hmem
    · exact hrs base ((SubscriptionRecord.leadsIn_congr (hold hmem)).2 hbase) r
        ((hold hmem r hb).2 hr) hb
    · exact hfresh base ((SubscriptionRecord.leadsIn_congr (hadded hmem)).2 hbase) r
        ((hadded hmem r hb).2 hr) hb

/-- A new record has to agree with the leader that there is, or becomes it. -/
theorem mooredRecords_concat (h : MooredRecords rs) (hid : ∀ r ∈ rs, r.id ≠ x.id) :
    MooredRecords (rs ++ [x]) ↔
      (x.category.isBaseLike = false → ∀ base : SubscriptionRecord, base.LeadsIn rs →
        base.bundle = x.bundle → x.bundleStart = base.bundleStart) ∧
      (x.category.isBaseLike = true →
        (∀ r ∈ rs, r.bundle = x.bundle → r.category.isBaseLike = false) →
        ∀ r ∈ rs, r.bundle = x.bundle → r.bundleStart = x.bundleStart) := by
  constructor
  · intro hmoored
    refine ⟨fun hkind base hbase hb => ?_, fun hkind hnone r hr hb => ?_⟩
    · refine hmoored base ⟨List.mem_append_left _ hbase.mem, hbase.kind, ?_⟩ x (by simp) hb.symm
      intro r hr hrb hrkind
      rcases List.mem_append.1 hr with hr | hr
      · exact hbase.sole r hr hrb hrkind
      · rw [List.mem_singleton.1 hr, hkind] at hrkind
        cases hrkind
    · refine hmoored x ⟨by simp, hkind, ?_⟩ r (List.mem_append_left _ hr) hb
      intro q hq hqb hqkind
      rcases List.mem_append.1 hq with hq | hq
      · rw [hnone q hq hqb] at hqkind
        cases hqkind
      · rw [List.mem_singleton.1 hq]
  · rintro ⟨haddOn, hbaseLike⟩ base hbase r hr hb
    rcases List.mem_append.1 hbase.mem with hmem | hmem
    · have hleads : base.LeadsIn rs :=
        ⟨hmem, hbase.kind, fun q hq => hbase.sole q (List.mem_append_left _ hq)⟩
      rcases List.mem_append.1 hr with hr | hr
      · exact h base hleads r hr hb
      · obtain rfl := List.mem_singleton.1 hr
        refine haddOn (Bool.eq_false_iff.2 fun hkind => ?_) base hleads hb.symm
        exact hid base hmem (hbase.sole r (by simp) hb hkind).symm
    · obtain rfl := List.mem_singleton.1 hmem
      rcases List.mem_append.1 hr with hr | hr
      · refine hbaseLike hbase.kind (fun q hq hqb => Bool.eq_false_iff.2 fun hkind => ?_) r hr hb
        exact hid q hq (hbase.sole q (List.mem_append_left _ hq) hqb hkind)
      · rw [List.mem_singleton.1 hr]

/-- Of records of one bundle, the leader is the only base-like one. -/
theorem mooredRecords_iff_of_bundle {b : BundleId} (hb : ∀ r ∈ rs, r.bundle = b)
    (hids : (rs.map (·.id)).Nodup) : MooredRecords rs ↔
      ∀ base, rs.filter (·.category.isBaseLike) = [base] →
        ∀ r ∈ rs, r.bundleStart = base.bundleStart := by
  constructor
  · intro h base hbase r hr
    have hmem : base ∈ rs.filter (·.category.isBaseLike) := hbase ▸ List.mem_singleton_self base
    obtain ⟨hmem, hkind⟩ := List.mem_filter.1 hmem
    refine h base ⟨hmem, hkind, fun q hq _ hqkind => ?_⟩ r hr ((hb r hr).trans (hb base hmem).symm)
    have hsame : q ∈ rs.filter (·.category.isBaseLike) := List.mem_filter.2 ⟨hq, hqkind⟩
    rw [hbase, List.mem_singleton] at hsame
    rw [hsame]
  · intro h base hbase r hr _
    refine h base (List.perm_singleton.1 ((List.perm_ext_iff_of_nodup
      ((hids.of_map _).sublist List.filter_sublist) (List.nodup_singleton _)).2 fun q => ?_)) r hr
    rw [List.mem_singleton, List.mem_filter]
    constructor
    · rintro ⟨hq, hkind⟩
      have hbundle := (hb q hq).trans (hb base hbase.mem).symm
      exact List.inj_on_of_nodup_map hids hq hbase.mem (hbase.sole q hq hbundle hkind)
    · rintro rfl
      exact ⟨hbase.mem, hbase.kind⟩

end Records

namespace Store

variable {s : Store} {b : BundleId} {base : Subscription}

theorem mem_basesOf {sub : Subscription} : sub ∈ s.basesOf b ↔
    ∃ r ∈ s.records, r.bundle = b ∧ r.category.isBaseLike = true ∧ s.visible r = sub := by
  rw [basesOf, List.mem_filter, mem_subscriptionsOf]
  constructor
  · rintro ⟨⟨r, hr, hb, rfl⟩, hkind⟩
    exact ⟨r, hr, hb, hkind, rfl⟩
  · rintro ⟨r, hr, hb, hkind, rfl⟩
    exact ⟨⟨r, hr, hb, rfl⟩, hkind⟩

theorem basesOf_eq_nil :
    s.basesOf b = [] ↔ ∀ r ∈ s.records, r.bundle = b → r.category.isBaseLike = false := by
  rw [List.eq_nil_iff_forall_not_mem]
  constructor
  · intro h r hr hb
    exact Bool.eq_false_iff.2 fun hkind => h _ (mem_basesOf.2 ⟨r, hr, hb, hkind, rfl⟩)
  · intro h sub hsub
    obtain ⟨r, hr, hb, hkind, -⟩ := mem_basesOf.1 hsub
    rw [h r hr hb] at hkind
    cases hkind

/-- A bundle has one base-like subscription if there is a record that leads it. -/
theorem Tidy.basesOf_eq_singleton (hs : s.Tidy) (hids : ((s.subscriptionsOf b).map (·.id)).Nodup) :
    s.basesOf b = [base] ↔
      ∃ r, SubscriptionRecord.LeadsIn r s.records ∧ r.bundle = b ∧ s.visible r = base := by
  constructor
  · intro h
    obtain ⟨r, hr, hb, hkind, hvisible⟩ := mem_basesOf.1 (h ▸ List.mem_singleton_self base)
    refine ⟨r, ⟨hr, hkind, fun q hq hqb hqkind => ?_⟩, hb, hvisible⟩
    have hmem := mem_basesOf.2 ⟨q, hq, hqb.trans hb, hqkind, rfl⟩
    rw [h, List.mem_singleton, ← hvisible] at hmem
    exact congrArg (·.id) hmem
  · rintro ⟨r, hleads, rfl, rfl⟩
    have hnodup : (s.basesOf r.bundle).Nodup :=
      (hids.of_map _).sublist List.filter_sublist
    refine List.perm_singleton.1
      ((List.perm_ext_iff_of_nodup hnodup (List.nodup_singleton _)).2 fun sub => ?_)
    rw [List.mem_singleton, mem_basesOf]
    constructor
    · rintro ⟨q, hq, hqb, hqkind, rfl⟩
      rw [hs.record_unique hq hleads.mem (hleads.sole q hq hqb hqkind)]
    · rintro rfl
      exact ⟨r, hleads.mem, rfl, hleads.kind, rfl⟩

theorem Sound.moored_iff (hs : s.Sound) : s.Moored ↔ MooredRecords s.records := by
  constructor
  · intro h base hbase r hr hb
    have hsole := (hs.tidy.basesOf_eq_singleton (hs.tidy.nodup_subscriptionsOf base.bundle)).2
      ⟨base, hbase, rfl, rfl⟩
    exact h base.bundle (s.visible base) hsole (s.visible r)
      (mem_subscriptionsOf.2 ⟨r, hr, hb, rfl⟩)
  · intro h b base hbase sub hsub
    obtain ⟨r, hleads, rfl, rfl⟩ :=
      (hs.tidy.basesOf_eq_singleton (hs.tidy.nodup_subscriptionsOf _)).1 hbase
    obtain ⟨q, hq, hqb, rfl⟩ := mem_subscriptionsOf.1 hsub
    exact h r hleads q hq hqb

end Store

/-! ## Where the copies come from -/

/-- The subscriptions that are imported into one bundle are given one start of it. -/
theorem ImportContext.planSubscriptions_bundleStart {cx : ImportContext} {bundle : BundleId}
    {key : String} {bundleStart : Option Instant} {supply supply' : Supply}
    {ms : List SubscriptionMigration} {subs : List Subscription}
    (h : cx.planSubscriptions bundle key bundleStart supply ms = .ok (subs, supply')) :
    (∀ date, bundleStart = some date → ∀ sub ∈ subs, sub.bundleStart = date) ∧
      ∀ sub ∈ subs, ∀ sub' ∈ subs, sub.bundleStart = sub'.bundleStart := by
  induction ms generalizing bundleStart supply subs with
  | nil =>
    cases h
    simp
  | cons m ms ih =>
    simp only [planSubscriptions, bind_eq_ok, pure_eq_ok, Prod.mk.injEq] at h
    obtain ⟨first, hfirst, ⟨rest, _⟩, hrest, rfl, rfl⟩ := h
    have hsame := (ih hrest).1 _ rfl
    have hall : ∀ sub ∈ first :: rest, sub.bundleStart = first.bundleStart :=
      List.forall_mem_cons.2 ⟨rfl, hsame⟩
    refine ⟨fun date hdate sub hsub => (hall sub hsub).trans ?_, fun sub hsub sub' hsub' =>
      (hall sub hsub).trans (hall sub' hsub').symm⟩
    simp only [planSubscription, bind_eq_ok, hdate, Option.some_or] at hfirst
    obtain ⟨_, -, _, -, hfirst⟩ := hfirst
    split at hfirst
    · simp [throw_ne_ok] at hfirst
    · rw [pure_eq_ok] at hfirst
      rw [← hfirst]

theorem ImportContext.planBundles_bundleStart {cx : ImportContext} {account : AccountId}
    {supply : Supply} {ms : List BundleMigration} {images : List BundleImage}
    (h : cx.planBundles account supply ms = .ok images) : ∀ image ∈ images,
      ∀ sub ∈ image.subscriptions, ∀ sub' ∈ image.subscriptions,
        sub.bundleStart = sub'.bundleStart := by
  induction ms generalizing supply images with
  | nil =>
    cases h
    simp
  | cons m ms ih =>
    simp only [planBundles, bind_eq_ok, pure_eq_ok] at h
    obtain ⟨⟨image, _⟩, himage, rest, hrest, rfl⟩ := h
    refine List.forall_mem_cons.2 ⟨?_, ih hrest⟩
    simp only [planBundle, bind_eq_ok] at himage
    obtain ⟨⟨subs, _⟩, hsubs, himage⟩ := himage
    split at himage
    · simp [throw_ne_ok] at himage
    · cases pure_eq_ok.1 himage
      exact (planSubscriptions_bundleStart hsubs).2

namespace Planned

variable {bundle : Bundle} {benched works : List Rework} {cx : ReplayContext} {repair : Repair}
  {view : String} {plan : RepairPlan} {s t : Store} {b : BundleId} {b' : Workbench}
  {q base : SubscriptionRecord} {written : List (Event × Nat)}

theorem bundleStart_of_touched
    (hp : Planned ⟨bundle, s.subscriptionsOf b, benched⟩ cx repair view works plan)
    (hload : Loaded (s.subscriptionsOf b) cx.ids) {w : Rework} (hw : w ∈ works)
    (htouched : w.isTouched = true) (hid : w.id = q.id) :
    (Store.reviseAll plan.commit.subscriptions q).bundleStart =
      (Workbench.repaired ⟨bundle, s.subscriptionsOf b, benched⟩ w).bundleStart.floorMillis := by
  rw [Store.reviseAll_of_mem (hp.commit_ids hload) (hp.repaired_mem hw htouched) hid.symm]
  have hown : (q.id == w.id) = true := beq_iff_eq.2 hid.symm
  exact congrArg SubscriptionRecord.bundleStart (if_pos hown)

/-- Unless the base plan is built anew, and in other bundles, copies stay as they are. -/
theorem bundleStart_kept
    (hp : Planned ⟨bundle, s.subscriptionsOf b, benched⟩ cx repair view works plan)
    (hload : Loaded (s.subscriptionsOf b) cx.ids) (hs : s.Tidy) (hq : q ∈ s.records)
    (hmillis : q.bundleStart.floorMillis = q.bundleStart)
    (h : Workbench.isBaseRecreated ⟨bundle, s.subscriptionsOf b, benched⟩ = true → q.bundle ≠ b) :
    (Store.reviseAll plan.commit.subscriptions q).bundleStart = q.bundleStart := by
  by_cases htouched : ∃ w ∈ works, w.id = q.id ∧ w.isTouched = true
  · obtain ⟨w, hw, hid, htouched⟩ := htouched
    obtain ⟨q', hq', hb, hvisible⟩ := hp.exists_record hw
    obtain rfl := hs.record_unique hq' hq ((congrArg (·.id) hvisible).trans hid)
    have hcopy : w.subscription.bundleStart = q'.bundleStart :=
      (congrArg (·.bundleStart) hvisible).symm
    rw [hp.bundleStart_of_touched hload hw htouched hid, Workbench.repaired,
      if_neg fun hre => h hre hb, hcopy, hmillis]
  · rw [Store.reviseAll_of_forall_ne (hp.commit_foreign fun w hw hid =>
      Bool.eq_false_iff.2 fun ht => htouched ⟨w, hw, hid, ht⟩)]

theorem touched_of_benched (h : Planned b' cx repair view works plan) {w : Rework}
    (hw : w ∈ b'.works) (hre : w.isRecreated = true) :
    ∃ w' ∈ works, w'.id = w.id ∧ w'.isTouched = true := by
  obtain ⟨w', hw', hbare⟩ := h.exists_worked hw
  refine ⟨w', hw', congrArg (·.subscription.id) hbare, ?_⟩
  have hproposals : w'.proposals = w.proposals := congrArg (·.proposals) hbare
  rw [Rework.isRecreated, ← hproposals] at hre
  cases hempty : w'.proposals with
  | nil => simp [hempty] at hre
  | cons p ps => simp [Rework.isTouched, hempty]

/-- A repair that builds the base plan anew writes to all that it leads. -/
theorem touched_of_recreated
    (hp : Planned ⟨bundle, s.subscriptionsOf b, benched⟩ cx repair view works plan)
    (hre : Workbench.isBaseRecreated ⟨bundle, s.subscriptionsOf b, benched⟩ = true)
    (hbase : base.LeadsIn s.records) (hb : base.bundle = b) (hq : q ∈ s.records)
    (hqb : q.bundle = b) : ∃ w ∈ works, w.id = q.id ∧ w.isTouched = true := by
  cases hkind : q.category.isBaseLike with
  | true =>
    obtain ⟨w, hedited, hrecreated⟩ := (Option.any_eq_true _ _).1 hre
    have hmem : w ∈ benched := List.mem_of_find?_eq_some hedited
    obtain ⟨q', hq', hqb', hvisible⟩ := Store.mem_subscriptionsOf.1
      (Loaded.mem_of_work hp.benched hmem)
    have hkind' : q'.category.isBaseLike = true := by
      rw [show q'.category = w.subscription.category from congrArg (·.category) hvisible]
      exact List.find?_some (p := Rework.isBaseLike) hedited
    have hid : w.id = q.id := by
      rw [hbase.sole q hq (hqb.trans hb.symm) hkind,
        ← hbase.sole q' hq' (hqb'.trans hb.symm) hkind']
      exact (congrArg (·.id) hvisible).symm
    obtain ⟨w', hw', hid', htouched⟩ := hp.touched_of_benched hmem hrecreated
    exact ⟨w', hw', hid'.trans hid, htouched⟩
  | false =>
    have hfault := hp.faultless
    simp only [Workbench.fault?, Option.or_eq_none_iff] at hfault
    have hnone := hfault.2.1
    rw [Workbench.recreationFault?, if_pos hre, List.findSome?_eq_none_iff] at hnone
    have hadd : s.visible q ∈ Workbench.addOns ⟨bundle, s.subscriptionsOf b, benched⟩ :=
      List.mem_filter.2 ⟨Store.mem_subscriptionsOf.2 ⟨q, hq, hqb, rfl⟩,
        beq_iff_eq.2 (Category.eq_addOn hkind)⟩
    have hcovered := hnone _ hadd
    split at hcovered
    · cases hcovered
    next w hwork =>
      split at hcovered
      next hrecreated =>
        obtain ⟨w', hw', hid', htouched⟩ := hp.touched_of_benched
          (List.mem_of_find?_eq_some hwork) hrecreated
        have hid : (w.id == q.id) = true :=
          List.find?_some (p := fun w : Rework => w.id == q.id) hwork
        exact ⟨w', hw', hid'.trans (eq_of_beq hid), htouched⟩
      · cases hcovered

/-- A repair leaves the copies of a bundle alike. -/
theorem mooredRecords
    (hp : Planned ⟨bundle, s.subscriptionsOf b, benched⟩ cx repair view works plan)
    (hload : Loaded (s.subscriptionsOf b) cx.ids) (hs : s.Tidy)
    (hrows : Rows s t (Store.reviseAll plan.commit.subscriptions) [] written)
    (hmillis : ∀ r ∈ s.records, r.bundleStart.floorMillis = r.bundleStart)
    (hmoored : MooredRecords s.records) : MooredRecords t.records := by
  rw [hrows.records, List.append_nil]
  refine MooredRecords.map hrows.keeps fun base hbase r hr hb => ?_
  by_cases hre : Workbench.isBaseRecreated ⟨bundle, s.subscriptionsOf b, benched⟩ = true ∧
      base.bundle = b
  · obtain ⟨hre, hbundle⟩ := hre
    have hmoved {q : SubscriptionRecord} (hq : q ∈ s.records) (hqb : q.bundle = b) :
        (Store.reviseAll plan.commit.subscriptions q).bundleStart =
          (Workbench.bundleStart ⟨bundle, s.subscriptionsOf b, benched⟩).floorMillis := by
      obtain ⟨w, hw, hid, htouched⟩ := hp.touched_of_recreated hre hbase hbundle hq hqb
      rw [hp.bundleStart_of_touched hload hw htouched hid, Workbench.repaired, if_pos hre]
    rw [hmoved hr (hb.trans hbundle), hmoved hbase.mem hbundle]
  · have hkept {q : SubscriptionRecord} (hq : q ∈ s.records) (hqb : q.bundle = base.bundle) :=
      hp.bundleStart_kept hload hs hq (hmillis q hq) fun h hbundle => hre ⟨h, hqb ▸ hbundle⟩
    rw [hkept hr hb, hkept hbase.mem rfl]
    exact hmoored base hbase r hr hb

end Planned

/-! ## Steps -/

section Steps

variable {s t : Store} {st : Step}

theorem Rows.moored {change : SubscriptionRecord → SubscriptionRecord}
    {written : List (Event × Nat)} (h : Rows s t change [] written) (hs : s.Sound) (ht : t.Sound)
    (hchange : ∀ r, (change r).bundleStart = r.bundleStart) (hmoored : s.Moored) : t.Moored := by
  rw [ht.moored_iff, h.records, List.append_nil]
  refine MooredRecords.map h.keeps fun base hbase r hr hb => ?_
  rw [hchange, hchange]
  exact hs.moored_iff.1 hmoored base hbase r hr hb

theorem Engine.newSubscription_bundleStart {e : Engine} {context : CallContext} {now : Instant}
    {bundle : BundleId} {spec : PlanSpec} {sub : Subscription}
    (h : e.newSubscription context now bundle spec s = .ok sub) :
    (sub.isBaseLike = true → sub.bundleStart = sub.start) ∧
      (sub.isBaseLike = false → ∃ base ∈ s.basesOf bundle, sub.bundleStart = base.start) := by
  obtain ⟨plan, date, schedule, -, hdate, -, rfl⟩ := newSubscription_eq_ok h
  obtain ⟨hbase, haddOn⟩ := bundleStartFor_eq_ok hdate
  refine ⟨hbase, fun hkind => ?_⟩
  obtain ⟨base, hmem, hbaseLike, hstart⟩ := haddOn hkind
  exact ⟨base, List.mem_filter.2 ⟨hmem, hbaseLike⟩, hstart⟩

/-- A new subscription keeps its bundle together unless it comes adrift. -/
theorem Rows.moored_created {e : Engine} {context : CallContext} {now : Instant}
    {bundle : BundleId} {spec : PlanSpec} {sub : Subscription} {written : List (Event × Nat)}
    (h : Rows s t id (Store.scratchRecords [sub]) written) (hs : s.Reachable) (ht : t.Sound)
    (planned : e.newSubscription context now bundle spec s = .ok sub) (hmoored : s.Moored) :
    t.Moored ↔
      ¬ Step.CreatesAddOnAdrift ⟨e, context, now, .createSubscription bundle spec⟩ s ∧
      ¬ Step.CreatesBaseAdrift ⟨e, context, now, .createSubscription bundle spec⟩ s := by
  have hsound := hs.sound
  have hbundle := Engine.bundle_of_newSubscription planned
  obtain ⟨hbaseLike, haddOn⟩ := Engine.newSubscription_bundleStart planned
  have hids := ht.tidy.recordIds
  rw [h.records, List.map_id, List.map_append, List.nodup_append] at hids
  have hnew : ∀ r ∈ s.records, r.id ≠ sub.id := fun r hr =>
    hids.2.2 _ (List.mem_map_of_mem hr) _ (by simp [Store.scratchRecords])
  rw [ht.moored_iff, h.records, List.map_id]
  refine (mooredRecords_concat (x := sub.toSubscriptionRecord.filed 1)
    (hsound.moored_iff.1 hmoored) hnew).trans (and_congr ?_ ?_)
  · -- An add-on has the start of the base plan as its copy.
    have hcopy (hkind : sub.isBaseLike = false) {r : SubscriptionRecord}
        (hr : r.LeadsIn s.records) (hb : r.bundle = bundle) :
        s.basesOf bundle = [s.visible r] ∧ sub.bundleStart.floorMillis = r.start := by
      have hbases := (hsound.tidy.basesOf_eq_singleton (hsound.tidy.nodup_subscriptionsOf bundle)).2
        ⟨r, hr, hb, rfl⟩
      obtain ⟨base, hbase, hstart⟩ := haddOn hkind
      rw [hbases, List.mem_singleton] at hbase
      rw [hstart, hbase]
      exact ⟨hbases, (hs.sound.tidy.recordDates r hr.mem).start⟩
    constructor
    · rintro hagree ⟨_, _, _, base, hcall, hplanned, hkind, hbases, hne⟩
      cases hcall
      rw [planned] at hplanned
      cases hplanned
      obtain ⟨r, hr, hb, rfl⟩ :=
        (hsound.tidy.basesOf_eq_singleton (hsound.tidy.nodup_subscriptionsOf bundle)).1 hbases
      exact hne ((hcopy hkind hr hb).2.symm.trans (hagree hkind r hr (hb.trans hbundle.symm)))
    · intro hnot hkind r hr hb
      obtain ⟨hbases, hstart⟩ := hcopy hkind hr (hb.trans hbundle)
      by_contra hne
      exact hnot ⟨bundle, spec, sub, _, rfl, planned, hkind, hbases,
        fun heq => hne (hstart.trans heq)⟩
  · constructor
    · rintro hagree ⟨_, _, _, hcall, hplanned, hkind, hbases, other, hother, hne⟩
      cases hcall
      rw [planned] at hplanned
      cases hplanned
      obtain ⟨r, hr, hb, rfl⟩ := Store.mem_subscriptionsOf.1 hother
      refine hne ((hagree hkind (fun q hq hqb => Store.basesOf_eq_nil.1 hbases q hq
        (hqb.trans hbundle)) r hr (hb.trans hbundle.symm)).trans ?_)
      exact congrArg Instant.floorMillis (hbaseLike hkind)
    · intro hnot hkind hnone r hr hb
      by_contra hne
      refine hnot ⟨bundle, spec, sub, rfl, planned, hkind, Store.basesOf_eq_nil.2 fun q hq hqb =>
        hnone q hq (hqb.trans hbundle.symm), s.visible r,
        Store.mem_subscriptionsOf.2 ⟨r, hr, hb.trans hbundle, rfl⟩, fun heq => hne ?_⟩
      exact heq.trans (congrArg Instant.floorMillis (hbaseLike hkind).symm)

theorem Rows.moored_imported {cx : ImportContext} {account : AccountId}
    {ms : List BundleMigration} {images : List BundleImage} {written : List (Event × Nat)}
    (h : Rows s t id (Store.scratchRecords (images.flatMap (·.subscriptions))) written)
    (hs : s.Sound) (ht : t.Sound) {supply : Supply} (hnew : supply.Fresh s)
    (planned : cx.planBundles account supply ms = .ok images) (hmoored : s.Moored) :
    t.Moored := by
  obtain ⟨hnodup, hfresh, -, hplans⟩ :=
    ImportContext.planBundles_plans hnew.bundles.injective hnew.events.injective planned
  have hown : ∀ image ∈ images, ∀ sub ∈ image.subscriptions, sub.bundle = image.bundle.id := by
    intro image himage
    obtain ⟨m, -, hplan⟩ := exists_left_of_forall₂ hplans himage
    exact hplan.bundle_eq
  rw [ht.moored_iff, h.records, List.map_id, mooredRecords_append]
  · refine ⟨hs.moored_iff.1 hmoored, fun x hx y hy hb => ?_⟩
    obtain ⟨sub, hsub, rfl⟩ := List.mem_map.1 hx.mem
    obtain ⟨sub', hsub', rfl⟩ := List.mem_map.1 hy
    obtain ⟨image, himage, hsub⟩ := List.mem_flatMap.1 hsub
    obtain ⟨image', himage', hsub'⟩ := List.mem_flatMap.1 hsub'
    obtain rfl : image' = image := List.inj_on_of_nodup_map hnodup himage' himage
      ((hown image' himage' sub' hsub').symm.trans (hb.trans (hown image himage sub hsub)))
    exact congrArg Instant.floorMillis
      (ImportContext.planBundles_bundleStart planned image' himage' sub' hsub' sub hsub)
  · intro x hx r hr
    obtain ⟨sub, hsub, rfl⟩ := List.mem_map.1 hx
    obtain ⟨image, himage, hsub⟩ := List.mem_flatMap.1 hsub
    obtain ⟨n, hn⟩ := hfresh image himage
    refine hs.tidy.bundle_ne hr fun c hc => ?_
    rw [show (sub.toSubscriptionRecord.filed 1).bundle = sub.bundle from rfl,
      hown image himage sub hsub, hn]
    exact hnew.bundles.ne c hc n

/-- A transfer keeps the new bundle together unless what it carries over comes adrift. -/
theorem Rows.moored_transferred {e : Engine} {context : CallContext} {now : Instant}
    {request : TransferRequest} {source : Bundle} {plan : TransferPlan}
    {written : List (Event × Nat)}
    (h : Rows s t id (Store.scratchRecords plan.image.subscriptions) written) (hs : s.Reachable)
    (ht : t.Sound) (found : s.bundleByKey? request.source request.key = some source)
    (planned : planTransfer source (s.subscriptionsOf source.id) request context now (e.supply s) =
      .ok plan) (hmoored : s.Moored) :
    t.Moored ↔ ¬ Step.TransfersAdrift ⟨e, context, now, .transfer request⟩ s := by
  have hsound := hs.sound
  obtain ⟨-, -, hsubs, -⟩ := planTransfer_eq_ok planned
  obtain ⟨pairs, hfst, hsnd, hpairs⟩ := transferAll_pairs (.ofContext context now)
    ((e.supply s).bundle 0) request.date (e.supply s)
    (request.carried (s.subscriptionsOf source.id))
  rw [← hsnd] at hsubs
  have hopening : pairs.map (·.1) = request.opening (s.subscriptionsOf source.id) := hfst
  have hcopy : ∀ p ∈ pairs, p.2.bundle = (e.supply s).bundle 0 ∧ p.2.category = p.1.category ∧
      (p.2.toSubscriptionRecord.filed 1).bundleStart = p.1.bundleStart := by
    intro p hp
    obtain ⟨_, hmoved⟩ := hpairs p hp
    have hsub : p.1 ∈ s.subscriptionsOf source.id := by
      have hmem : p.1 ∈ pairs.map (·.1) := List.mem_map_of_mem hp
      rw [hopening] at hmem
      exact (List.mem_filter.1 (List.mem_filter.1 hmem).1).1
    obtain ⟨r, hr, -, hvisible⟩ := Store.mem_subscriptionsOf.1 hsub
    obtain ⟨_, _, -, hmoved⟩ := Subscription.transferred?_eq_some hmoved
    rw [hmoved]
    refine ⟨rfl, rfl, ?_⟩
    rw [← hvisible]
    exact (hs.sound.tidy.recordDates r hr).bundleStart
  have hrecords : t.records =
      s.records ++ pairs.map fun p => p.2.toSubscriptionRecord.filed 1 := by
    rw [h.records, List.map_id, hsubs, Store.scratchRecords, List.map_map]
    rfl
  have hids := ht.tidy.recordIds
  rw [hrecords, List.map_append] at hids
  have hfresh : ∀ x ∈ pairs.map (fun p => p.2.toSubscriptionRecord.filed 1),
      x.bundle = (e.supply s).bundle 0 := List.forall_mem_map.2 fun p hp => (hcopy p hp).1
  rw [ht.moored_iff, hrecords, mooredRecords_append fun x hx r hr =>
      hsound.tidy.bundle_ne hr fun c hc =>
        hfresh x hx ▸ (e.supply_fresh s).bundles.ne c hc 0,
    and_iff_right (hsound.moored_iff.1 hmoored),
    mooredRecords_iff_of_bundle hfresh (List.nodup_append.1 hids).2.1]
  -- The copies are base-like as their originals are.
  have hbases : (pairs.map fun p => p.2.toSubscriptionRecord.filed 1).filter
        (·.category.isBaseLike) =
      (pairs.filter (·.1.isBaseLike)).map fun p => p.2.toSubscriptionRecord.filed 1 := by
    rw [List.filter_map]
    refine congrArg _ (List.filter_congr fun p hp => ?_)
    exact congrArg Category.isBaseLike (hcopy p hp).2.1
  have hbases' : (request.opening (s.subscriptionsOf source.id)).filter (·.isBaseLike) =
      (pairs.filter (·.1.isBaseLike)).map (·.1) := by
    rw [← hopening, List.filter_map]
    rfl
  rw [hbases]
  constructor
  · rintro hagree ⟨_, source', base, hcall, hfound, hbase, other, hother, hne⟩
    cases hcall
    obtain rfl : source' = source := Option.some.inj (hfound.symm.trans found)
    rw [hbases', List.map_eq_singleton_iff] at hbase
    obtain ⟨p, hp, rfl⟩ := hbase
    rw [← hopening] at hother
    obtain ⟨q, hq, rfl⟩ := List.mem_map.1 hother
    have hmem : p ∈ pairs :=
      (List.mem_filter.1 (hp ▸ List.mem_singleton_self p : p ∈ pairs.filter _)).1
    have hsame := hagree _ (by rw [hp, List.map_singleton]) _ (List.mem_map_of_mem hq)
    exact hne ((hcopy q hq).2.2.symm.trans (hsame.trans (hcopy p hmem).2.2))
  · intro hnot x hx y hy
    obtain ⟨p, hp, rfl⟩ := List.map_eq_singleton_iff.1 hx
    obtain ⟨q, hq, rfl⟩ := List.mem_map.1 hy
    have hmem : p ∈ pairs :=
      (List.mem_filter.1 (hp ▸ List.mem_singleton_self p : p ∈ pairs.filter _)).1
    rw [(hcopy q hq).2.2, (hcopy p hmem).2.2]
    by_contra hne
    refine hnot ⟨request, source, p.1, rfl, found, ?_, q.1,
      hopening ▸ List.mem_map_of_mem hq, hne⟩
    rw [hbases', hp, List.map_singleton]

namespace Step

theorem not_createsAdrift (h : ∀ bundle spec, st.call ≠ .createSubscription bundle spec) :
    ¬ st.CreatesAddOnAdrift s ∧ ¬ st.CreatesBaseAdrift s :=
  ⟨fun ⟨_, _, _, _, hcall, _⟩ => h _ _ hcall, fun ⟨_, _, _, hcall, _⟩ => h _ _ hcall⟩

theorem not_transfersAdrift (h : ∀ request, st.call ≠ .transfer request) :
    ¬ st.TransfersAdrift s :=
  fun ⟨_, _, _, hcall, _⟩ => h _ hcall

end Step

/-- What a step writes leaves the copies of a bundle alike, unless they come adrift. -/
theorem Wrote.moored_iff (h : Wrote s t st) (hs : s.Reachable) (hmoored : s.Moored) :
    t.Moored ↔
      ¬ (st.CreatesAddOnAdrift s ∨ st.CreatesBaseAdrift s ∨ st.TransfersAdrift s) := by
  have hsound := hs.sound
  have ht := h.sound hsound
  rw [not_or, not_or, ← and_assoc]
  cases h with
  | createBundle rows | changePlan _ rows | cancel _ rows | uncancel _ rows =>
    exact iff_of_true (rows.moored hsound ht (fun _ => rfl) hmoored)
      ⟨Step.not_createsAdrift fun _ _ => nofun, Step.not_transfersAdrift fun _ => nofun⟩
  | setChargedThrough rows paid =>
    refine iff_of_true (rows.moored hsound ht (fun r => ?_) hmoored)
      ⟨Step.not_createsAdrift fun _ _ => nofun, Step.not_transfersAdrift fun _ => nofun⟩
    obtain ⟨date, hr⟩ := paid r
    rw [hr]
  | repair planned rows _ =>
    obtain ⟨bundle, benched, works, -, hp⟩ := Engine.planStored_eq_ok planned
    refine iff_of_true (ht.moored_iff.2 ?_)
      ⟨Step.not_createsAdrift fun _ _ => nofun, Step.not_transfersAdrift fun _ => nofun⟩
    exact hp.mooredRecords (hsound.loaded _ (Engine.supply_fresh _ _).events) hsound.tidy rows
      (fun q hq => (hsound.tidy.recordDates q hq).bundleStart) (hsound.moored_iff.1 hmoored)
  | migrate planned rows =>
    exact iff_of_true
      (rows.moored_imported hsound ht (Engine.supply_fresh _ _) (planMigration_eq_ok planned)
        hmoored)
      ⟨Step.not_createsAdrift fun _ _ => nofun, Step.not_transfersAdrift fun _ => nofun⟩
  | createSubscription planned rows =>
    refine (rows.moored_created hs ht planned hmoored).trans (and_iff_left ?_).symm
    exact Step.not_transfersAdrift fun _ => nofun
  | transfer found planned rows =>
    refine (rows.moored_transferred hs ht found planned hmoored).trans (and_iff_right ?_).symm
    exact Step.not_createsAdrift fun _ _ => nofun

/-- Where copies are alike, the next step leaves them so if and only if it does not unmoor. -/
theorem Step.moored_iff (st : Step) (hs : s.Reachable) (hmoored : s.Moored) :
    (st.after s).Moored ↔ ¬ st.Unmoors s := by
  rcases st.idle_or_writes hs.sound with hidle | hwrites
  · refine iff_of_true (hidle.after.symm ▸ hmoored) ?_
    rintro ⟨hdone, hadrift⟩
    obtain ⟨_, _, hcall⟩ := hidle.dryRun hdone
    rcases hadrift with ⟨_, _, _, _, hother, -⟩ | ⟨_, _, _, hother, -⟩ | ⟨_, _, _, hother, -⟩ <;>
      rw [hcall] at hother <;> cases hother
  · rw [hwrites.wrote.moored_iff hs hmoored, Unmoors, and_iff_right hwrites.done]

end Steps

/-! ## Runs -/

/-- Steps none of which unmoors. -/
def mooring (s : Store) (st : Step) : Prop := ¬ st.Unmoors s

theorem Run.moored {s : Store} (h : Run mooring {} s) : s.Moored := by
  induction h with
  | refl =>
    intro b base _ sub hsub
    simp [Store.subscriptionsOf, sortBy] at hsub
  | step st hrun hmooring ih =>
    exact (st.moored_iff (hrun.mono fun _ _ _ => trivial) ih).2 hmooring

theorem Run.mooring_step {s : Store} (h : Run mooring {} s) (st : Step)
    (hafter : MooredRecords (st.after s).records) : Run mooring {} (st.after s) := by
  have hs : s.Reachable := h.mono fun _ _ _ => trivial
  exact .step st h ((st.moored_iff hs h.moored).1 ((st.sound hs.sound).moored_iff.2 hafter))

/-- **One anchor for a bundle.** After operations none of which unmoors, every subscription of a
bundle with one base-like subscription has the start of the bundle that this one has, and it is what
a repair lays out from that does not build the base plan anew. The next operation leaves it so if
and only if it does not unmoor. -/
theorem moored_unless_adrift {s : Store} (h : Run mooring {} s) :
    (∀ b base, s.basesOf b = [base] → ∀ sub ∈ s.subscriptionsOf b,
      sub.bundleStart = base.bundleStart ∧ ∀ bundle works,
        Workbench.isBaseRecreated ⟨bundle, s.subscriptionsOf b, works⟩ = false →
          Workbench.bundleStart ⟨bundle, s.subscriptionsOf b, works⟩ = sub.bundleStart) ∧
      ∀ st : Step, (st.after s).Moored ↔ ¬ st.Unmoors s := by
  have hmoored := h.moored
  refine ⟨fun b base hbase sub hsub => ?_, fun st =>
    st.moored_iff (h.mono fun _ _ _ => trivial) hmoored⟩
  have hcopy := hmoored b base hbase sub hsub
  exact ⟨hcopy, fun bundle works hre =>
    (Workbench.bundleStart_of_basesOf hbase bundle works hre).trans hcopy.symm⟩

namespace Sample

/-- A base plan that went to another account on day 10. -/
def moved : List Step :=
  [step 0 (.createBundle ⟨1⟩ "key"),
    step 0 (.createSubscription ⟨1⟩ ⟨"assault-rifle", .monthly, "DEFAULT"⟩),
    step 10 (.transfer handover)]

/-- An add-on for it, two days later. -/
def lateScope : Step := step 12 (.createSubscription ⟨2⟩ ⟨"laser-scope", .monthly, "DEFAULT"⟩)

theorem run_moved : Run mooring {} (after moved) := by
  have hempty : Run mooring {} {} := .refl {}
  have hcreated := hempty.mooring_step
    (step 0 (.createBundle ⟨1⟩ "key")) (by decide +kernel)
  have hsubscribed := hcreated.mooring_step
    (step 0 (.createSubscription ⟨1⟩ ⟨"assault-rifle", .monthly, "DEFAULT"⟩)) (by decide +kernel)
  exact hsubscribed.mooring_step (step 10 (.transfer handover)) (by decide +kernel)

end Sample

/-- The copies of the base plan and of its add-on differ by the ten days before the transfer. -/
theorem moored_unless_adrift_sample :
    (Sample.after Sample.moved).Moored ∧ Sample.lateScope.Unmoors (Sample.after Sample.moved) ∧
      ((Sample.lateScope.after (Sample.after Sample.moved)).subscriptionsOf ⟨2⟩).map
        (fun sub => (sub.category, sub.bundleStart)) =
          [(.base, Sample.day 0), (.addOn, Sample.day 10)] := by
  obtain ⟨hmoored, hnext⟩ := moored_unless_adrift Sample.run_moved
  have hcopies : ((Sample.lateScope.after (Sample.after Sample.moved)).subscriptionsOf ⟨2⟩).map
      (fun sub => (sub.category, sub.bundleStart)) =
        [(.base, Sample.day 0), (.addOn, Sample.day 10)] := by decide +kernel
  refine ⟨fun b base hbase sub hsub => (hmoored b base hbase sub hsub).1, ?_, hcopies⟩
  by_contra hstays
  have hsound := (Sample.lateScope.sound (Sample.reachable_after Sample.moved).sound)
  have hrecords := hsound.moored_iff.1 ((hnext Sample.lateScope).2 hstays)
  revert hrecords
  decide +kernel

end Tenure
