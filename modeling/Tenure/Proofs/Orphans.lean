import Tenure.Proofs.ImportedTerms

/-!
# No orphan add-ons

An add-on is meant to be active only while a base-like subscription of its bundle is. Each operation
does its part: a creation asks for an active base plan at the start of the add-on, the cancellation
of a base plan ends the add-ons with it, and its uncancellation brings the same add-ons back.

Each of them looks at one date, and an import at none. So there are four kinds of steps that may
leave an *orphan*, an add-on that is active while no base-like subscription of its bundle is:

* an add-on is created for a bundle that will have no base plan any more;
* an add-on is uncancelled without the base plan that it was to end with;
* a standalone subscription is cancelled, which takes no add-ons with it;
* the cases of an imported add-on span more than those of the base plans.

Without such steps there are no orphans (`no_orphan_add_on`), and each such step leaves one
(`Step.orphaned`).
-/

namespace Tenure

/-! ## Steps that orphan -/

/-- The cases of an add-on span an instant that no cases of a base-like subscription span. -/
def BundleMigration.HasOrphan (m : BundleMigration) : Prop :=
  ∃ a ∈ m.subscriptions, a.category = .addOn ∧ ∃ p ∈ a.span?, ∃ t, p.Has t ∧
    ∀ base ∈ m.subscriptions, base.category.isBaseLike = true → ∀ q ∈ base.span?, ¬ q.Has t

namespace Step

/-- The step creates an add-on, and no base-like subscription of the bundle is active at some
instant from its start on, as it is stored. -/
def CreatesAdrift (st : Step) (s : Store) : Prop :=
  ∃ bundle spec sub, st.call = .createSubscription bundle spec ∧
    st.engine.newSubscription st.context st.now bundle spec s = .ok sub ∧
    sub.category = .addOn ∧ ∃ t, sub.start.floorMillis ≤ t ∧ s.activeBases bundle t = []

/-- The step uncancels an add-on, and no base-like subscription of the bundle is active at some
instant from the end that it had on. The date is stored no later than that end, which it might be
in a leap second. -/
def UncancelsAdrift (st : Step) (s : Store) : Prop :=
  ∃ i sub f, st.call = .uncancel i ∧ s.subscription? i = some sub ∧ sub.category = .addOn ∧
    sub.finish? = some f ∧ (st.context.requested.getD st.now).floorMillis ≤ f ∧
      ∃ t, f ≤ t ∧ s.activeBases sub.bundle t = []

/-- The step cancels a standalone subscription, and at some instant from its end on an add-on of the
bundle is active, and no other base-like subscription. -/
def CancelsUnder (st : Step) (s : Store) : Prop :=
  ∃ i sub ended f, st.call = .cancel i ∧ s.subscription? i = some sub ∧
    sub.category = .standalone ∧ (st.after s).subscription? i = some ended ∧
    ended.finish? = some f ∧ ∃ t, f ≤ t ∧ s.activeAddOns sub.bundle t ≠ [] ∧
      ∀ base ∈ s.activeBases sub.bundle t, base.id = i

/-- The step imports an orphan. -/
def ImportsAdrift (st : Step) : Prop :=
  ∃ migration, st.call = .migrate migration ∧ ∃ m ∈ migration.bundles, m.HasOrphan

/-- The step is carried out and leaves an add-on without a base plan. -/
def Orphans (st : Step) (s : Store) : Prop :=
  st.Succeeds s ∧
    (st.CreatesAdrift s ∨ st.UncancelsAdrift s ∨ st.CancelsUnder s ∨ st.ImportsAdrift)

end Step

/-! ## Terms -/

/-- Whenever an add-on of a bundle is active, a base-like term is. -/
def Anchored (xs : List Term) : Prop :=
  ∀ b t, (∃ x ∈ xs, x.IsAddOnAt b t) → ∃ y ∈ xs, y.IsBaseAt b t

namespace Anchored

variable {xs ys : List Term} {c : Term} {date f : Instant}

theorem append (h : Anchored xs)
    (hnew : ∀ x ∈ ys, ∀ b t, x.IsAddOnAt b t → ∃ y ∈ xs ++ ys, y.IsBaseAt b t) :
    Anchored (xs ++ ys) := by
  rintro b t ⟨x, hx, haddOn⟩
  rcases List.mem_append.1 hx with hx | hx
  · obtain ⟨y, hy, hbase⟩ := h b t ⟨x, hx, haddOn⟩
    exact ⟨y, List.mem_append_left _ hy, hbase⟩
  · exact hnew x hx b t haddOn

/-- With a base plan go the add-ons, and otherwise some other base-like term has to be left. -/
theorem cut (h : Anchored xs) (hunique : ∀ x ∈ xs, x.id = c.id → x = c)
    (hmillis : ∀ x ∈ xs, x.InMillis) (hc : c ∈ xs) (hlive : c.finish = none)
    (hother : c.category = .standalone → ∀ x ∈ xs, ∀ t, date.floorMillis ≤ t →
      x.IsAddOnAt c.bundle t → ∃ y ∈ xs, y.id ≠ c.id ∧ y.IsBaseAt c.bundle t) :
    Anchored (xs.map (c.cut date)) := by
  rintro b t ⟨_, hmem, haddOn⟩
  obtain ⟨x, hx, rfl⟩ := List.mem_map.1 hmem
  have hold : x.IsAddOnAt b t := ⟨haddOn.bundle, haddOn.kind, Term.has_of_cut haddOn.has⟩
  obtain ⟨y, hy, hbase⟩ := h b t ⟨x, hx, hold⟩
  -- The base-like term at hand is what is cut, or it stays as it is.
  by_cases hyc : y.id = c.id
  · obtain rfl := hunique y hy hyc
    by_cases hearly : t < date.floorMillis
    · refine ⟨y.cut date y, List.mem_map_of_mem hc, hbase.bundle, hbase.kind, hbase.has.1, ?_⟩
      rw [Term.cut_self hlive]
      rintro f ⟨⟩
      exact hearly
    · cases hcategory : y.category with
      | base =>
        have hsame : x.bundle = y.bundle := haddOn.bundle.trans hbase.bundle.symm
        have hkind : x.category = .addOn := by simpa using hold.kind
        have hne : x.id ≠ y.id := fun hid => by
          rw [hunique x hx hid, hcategory] at hkind
          cases hkind
        exact (hearly
          (Term.lt_of_has_cut (hmillis x hx) hne hcategory hsame hkind haddOn.has)).elim
      | standalone =>
        obtain rfl := hbase.bundle
        obtain ⟨z, hz, hzy, hzbase⟩ := hother hcategory x hx t (Int.not_lt.1 hearly) hold
        exact ⟨y.cut date z, List.mem_map_of_mem hz, by rwa [Term.cut_of_base hzy hzbase.kind]⟩
      | addOn =>
        have hkind := hbase.kind
        simp [hcategory, Category.isBaseLike] at hkind
  · exact ⟨c.cut date y, List.mem_map_of_mem hy, by rwa [Term.cut_of_base hyc hbase.kind]⟩

/-- What is restored without its base plan has to find another. -/
theorem restored (h : Anchored xs) (hc : c ∈ xs) (hunique : ∀ x ∈ xs, x.id = c.id → x = c)
    (hend : c.finish = some f) (hle : c.start ≤ f) (hnew : c.category = .addOn → date ≤ f →
      ∀ t, f ≤ t → ∃ y ∈ xs, y.IsBaseAt c.bundle t) :
    Anchored (xs.map (c.restore date)) := by
  have hkeeps {b : BundleId} {t : Instant} (hbase : ∃ y ∈ xs, y.IsBaseAt b t) :
      ∃ y ∈ xs.map (c.restore date), y.IsBaseAt b t := by
    obtain ⟨y, hy, hbase⟩ := hbase
    exact ⟨c.restore date y, List.mem_map_of_mem hy, by simpa using hbase.bundle,
      by simpa using hbase.kind, Term.has_restore hbase.has⟩
  rintro b t ⟨_, hmem, haddOn⟩
  obtain ⟨x, hx, rfl⟩ := List.mem_map.1 hmem
  have hbundle : x.bundle = b := by simpa using haddOn.bundle
  have hcategory : x.category = .addOn := by simpa using haddOn.kind
  -- Only what is restored has instants that it did not have.
  by_cases hhas : x.Has t
  · exact hkeeps (h b t ⟨x, hx, hbundle, by simpa using hcategory, hhas⟩)
  · have hrecalls : c.Recalls x := by
      by_contra hnot
      rw [Term.restore_of_not_recalls hnot] at haddOn
      exact hhas haddOn.has
    have hfinish : x.finish = some f := hrecalls.elim (fun hid => hunique x hx hid ▸ hend)
      fun h => h.2.2.2.trans hend
    have hreaches : date ≤ f := Int.not_lt.1 fun hlt => by
      rw [Term.restore_of_ends hfinish hlt] at haddOn
      exact hhas haddOn.has
    have hstart : x.start ≤ t := (Term.restore_has hrecalls hfinish hreaches).1 haddOn.has
    have hlate : f ≤ t := Int.not_lt.1 fun hlt => hhas ⟨hstart, fun f' hf' => by
      rw [hfinish, Option.mem_some_iff] at hf'
      exact hf' ▸ hlt⟩
    rcases hrecalls with hid | ⟨hbase, hsame, -, -⟩
    · obtain rfl := hunique x hx hid
      exact hbundle ▸ hkeeps (hnew hcategory hreaches t hlate)
    · have hhas : (c.restore date c).Has t :=
        (Term.restore_has (.inl rfl) hend hreaches).2 (Int.le_trans hle hlate)
      exact ⟨c.restore date c, List.mem_map_of_mem hc, by simpa [← hsame] using hbundle,
        by simp [hbase, Category.isBaseLike], hhas⟩

end Anchored

theorem Store.Regular.anchored_iff {s : Store} (hs : s.Regular) :
    Anchored s.terms ↔ ∀ b t, s.activeAddOns b t ≠ [] → s.activeBases b t ≠ [] := by
  simp only [hs.activeOf_ne_nil, Anchored]

/-! ## Steps -/

/-- The operations of subscriptions' lives, and imports. -/
def Call.isTended (call : Call) : Prop := call.isLifecycle = true ∨ ∃ m, call = .migrate m

section Steps

variable {s : Store} {st : Step}

theorem Step.regular_of_tended (hs : s.Regular) (hcall : st.call.isTended) :
    (st.after s).Regular := by
  rcases hcall with hlife | ⟨migration, hcall⟩
  · exact (st.turned hs hlife).1
  · exact (st.migrated hs hcall).1

/-- In terms: a standalone one is cut, and it is the only base-like one for some add-on. -/
theorem Step.cancelsUnder_iff (hs : s.Regular) (ht : (st.after s).Regular) {c : Term}
    {date : Instant} (hcall : st.call = .cancel c.id) (hc : c ∈ s.terms) (hlive : c.finish = none)
    (hterms : (st.after s).terms = s.terms.map (c.cut date)) :
    st.CancelsUnder s ↔ c.category = .standalone ∧ ∃ t, date.floorMillis ≤ t ∧
      (∃ x ∈ s.terms, x.IsAddOnAt c.bundle t) ∧
        ∀ y ∈ s.terms, y.IsBaseAt c.bundle t → y.id = c.id := by
  obtain ⟨sub, -, hsub, hdescribes⟩ := hs.exists_subscription hc
  obtain ⟨ended, -, hended, hends⟩ :=
    ht.exists_subscription (hterms ▸ List.mem_map_of_mem hc : c.cut date c ∈ (st.after s).terms)
  have hfinish : ended.finish? = some date.floorMillis :=
    hends.finish?.trans (Term.cut_self hlive)
  have hbases (t : Instant) : (∀ base ∈ s.activeBases c.bundle t, base.id = c.id) ↔
      ∀ y ∈ s.terms, y.IsBaseAt c.bundle t → y.id = c.id := by
    constructor
    · intro h y hy hbase
      obtain ⟨base, hmem, hid⟩ := hs.exists_activeOf hy hbase
      exact hid.symm.trans (h base hmem)
    · intro h base hmem
      obtain ⟨y, hy, hbase, hid⟩ := hs.mem_activeOf hmem
      exact hid.symm.trans (h y hy hbase)
  constructor
  · rintro ⟨i, sub', ended', f, hcall', hsub', hstandalone, hended', hf, t, hle, haddOns, hall⟩
    rw [hcall] at hcall'
    cases hcall'
    cases hsub.symm.trans hsub'
    cases hended.symm.trans hended'
    cases hfinish.symm.trans hf
    rw [hdescribes.bundle] at haddOns hall
    exact ⟨hdescribes.category ▸ hstandalone, t, hle, hs.activeOf_ne_nil.1 haddOns,
      (hbases t).1 hall⟩
  · rintro ⟨hstandalone, t, hle, haddOns, hall⟩
    refine ⟨c.id, sub, ended, _, hcall, hsub, hdescribes.category.trans hstandalone, hended,
      hfinish, t, hle, ?_, ?_⟩
    · rw [hdescribes.bundle]
      exact hs.activeOf_ne_nil.2 haddOns
    · rw [hdescribes.bundle]
      exact (hbases t).2 hall

/-- Operations of subscriptions' lives that do not orphan keep add-ons with a base plan. -/
theorem Step.anchored_of_turned (hs : s.Regular) (hlife : st.call.isLifecycle = true)
    (hdone : st.Succeeds s) (horphans : ¬ st.Orphans s) (hanchored : Anchored s.terms) :
    Anchored (st.after s).terms := by
  obtain ⟨ht, hturn⟩ := st.turned hs hlife
  cases hturn with
  | same _ hterms => exact hterms ▸ hanchored
  | @opened e context now bundle spec sub planned hterms =>
    refine hterms ▸ hanchored.append (List.forall_mem_singleton.2 fun b t hnew => ?_)
    obtain rfl : bundle = b := (Engine.bundle_of_newSubscription planned).symm.trans hnew.bundle
    have hne : s.activeBases bundle t ≠ [] := fun hnil => horphans ⟨hdone, .inl ⟨bundle, spec, sub,
      rfl, planned, beq_iff_eq.1 hnew.kind, t, hnew.has.start_le, hnil⟩⟩
    obtain ⟨y, hy, hbase⟩ := hs.activeOf_ne_nil.1 hne
    exact ⟨y, List.mem_append_left _ hy, hbase⟩
  | @cut e context now c date mem live down hterms =>
    refine hterms ▸ hanchored.cut (fun x hx => hs.unique hx mem) (fun x => hs.inMillis) mem live
      fun hstandalone x hx t hle haddOn => ?_
    by_contra hnone
    refine horphans ⟨hdone, .inr (.inr (.inl ((Step.cancelsUnder_iff hs ht rfl mem live hterms).2
      ⟨hstandalone, t, hle, ⟨x, hx, haddOn⟩, fun y hy hbase => ?_⟩)))⟩
    by_contra hne
    exact hnone ⟨y, hy, hne, hbase⟩
  | @restored e context now c f mem ends ahead hterms =>
    refine hterms ▸ hanchored.restored mem (fun x hx => hs.unique hx mem) ends
      (hs.start_le_finish mem f ends) fun haddOn hreaches t hle => ?_
    obtain ⟨sub, -, hsub, hdescribes⟩ := hs.exists_subscription mem
    have hne : s.activeBases sub.bundle t ≠ [] := fun hnil => horphans ⟨hdone, .inr (.inl
      ⟨c.id, sub, f, rfl, hsub, hdescribes.category.trans haddOn, hdescribes.finish?.trans ends,
        hreaches, t, hle, hnil⟩)⟩
    rw [hdescribes.bundle] at hne
    exact hs.activeOf_ne_nil.1 hne

theorem Step.anchored_of_migrated (hs : s.Regular) {migration : AccountMigration}
    (hcall : st.call = .migrate migration) (hdone : st.Succeeds s) (horphans : ¬ st.Orphans s)
    (hanchored : Anchored s.terms) : Anchored (st.after s).terms := by
  obtain ⟨added, ids, hterms, hbundles, hlands⟩ := (st.migrated hs hcall).2 hdone
  rw [hterms] at hlands ⊢
  refine hanchored.append fun x hx b t haddOn => ?_
  obtain rfl := haddOn.bundle
  obtain ⟨m, hm, hlands⟩ := exists_left_of_forall₂ hlands (hbundles x hx)
  obtain ⟨a, ha, himported⟩ := hlands.exists_migration (List.mem_append_right _ hx) rfl
  by_contra hno
  refine horphans ⟨hdone, .inr (.inr (.inr ⟨migration, hcall, m, hm, a, ha,
    himported.category.symm.trans (beq_iff_eq.1 haddOn.kind), _, himported.span, t, haddOn.has,
    fun base hbase hkind q hq hhas => hno ?_⟩))⟩
  obtain ⟨y, hy, hbundle, himported⟩ := hlands.exists_term hbase
  rw [himported.span, Option.mem_some_iff] at hq
  exact ⟨y, hy, hbundle, himported.category ▸ hkind, hq ▸ hhas⟩

theorem Step.anchored (hs : s.Regular) (hcall : st.call.isTended) (horphans : ¬ st.Orphans s)
    (hanchored : Anchored s.terms) : Anchored (st.after s).terms := by
  by_cases hdone : st.Succeeds s
  · rcases hcall with hlife | ⟨migration, hcall⟩
    · exact Step.anchored_of_turned hs hlife hdone horphans hanchored
    · exact Step.anchored_of_migrated hs hcall hdone horphans hanchored
  · rw [st.after_of_fails hs.sound hdone]
    exact hanchored

theorem Step.not_anchored_of_creation (hs : s.Regular) (hdone : st.Succeeds s)
    (h : st.CreatesAdrift s) : ¬ Anchored (st.after s).terms := by
  obtain ⟨bundle, spec, sub, hcall, planned, hcategory, t, hle, hnil⟩ := h
  obtain ⟨sub', planned', hterms⟩ := (st.turned hs (hcall ▸ rfl)).2.of_creation hdone hcall
  cases planned.symm.trans planned'
  have haddOn : sub.opening.IsAddOnAt bundle t := ⟨Engine.bundle_of_newSubscription planned,
    beq_iff_eq.2 hcategory, (Span.has_of_open rfl).2 hle⟩
  intro hanchored
  rw [hterms] at hanchored
  obtain ⟨y, hy, hbase⟩ := hanchored bundle t ⟨_, by simp, haddOn⟩
  rcases List.mem_append.1 hy with hy | hy
  · exact hs.activeOf_ne_nil.2 ⟨y, hy, hbase⟩ hnil
  · have hkind := hbase.kind
    rw [List.mem_singleton.1 hy, show sub.opening.category = .addOn from hcategory] at hkind
    cases hkind

theorem Step.not_anchored_of_uncancel (hs : s.Regular) (hdone : st.Succeeds s)
    (h : st.UncancelsAdrift s) : ¬ Anchored (st.after s).terms := by
  obtain ⟨i, sub, f, hcall, hsub, hcategory, hend, hreaches, t, hle, hnil⟩ := h
  obtain ⟨c, hc, -, hid, -, -, hterms⟩ :=
    (st.turned hs (hcall ▸ rfl)).2.of_uncancel hdone hcall
  obtain ⟨c', hc', hid', hdescribes⟩ := hs.term_of_subscription? hsub
  obtain rfl := hs.unique hc' hc (hid'.trans hid.symm)
  rw [hdescribes.finish?] at hend
  rw [hdescribes.category] at hcategory
  have hstart : c'.start ≤ t := Int.le_trans (hs.start_le_finish hc f hend) hle
  have haddOn : (c'.restore (st.context.requested.getD st.now).floorMillis c').IsAddOnAt
      sub.bundle t :=
    ⟨Term.restore_bundle.trans hdescribes.bundle.symm,
      beq_iff_eq.2 (Term.restore_category.trans hcategory),
      (Term.restore_has (.inl rfl) hend hreaches).2 hstart⟩
  intro hanchored
  rw [hterms] at hanchored
  obtain ⟨_, hmem, hbase⟩ := hanchored sub.bundle t ⟨_, List.mem_map_of_mem hc, haddOn⟩
  obtain ⟨y, hy, rfl⟩ := List.mem_map.1 hmem
  have hkind : y.category.isBaseLike = true := Term.restore_category ▸ hbase.kind
  have hkept : c'.restore (st.context.requested.getD st.now).floorMillis y = y :=
    Term.restore_of_not_recalls fun hrecalls => by
    obtain rfl := hs.unique hy hc (Term.id_of_recalls hkind hrecalls)
    rw [hcategory] at hkind
    cases hkind
  exact hs.activeOf_ne_nil.2 ⟨y, hy, hkept ▸ hbase⟩ hnil

theorem Step.not_anchored_of_cancel (hs : s.Regular) (hdone : st.Succeeds s)
    (h : st.CancelsUnder s) : ¬ Anchored (st.after s).terms := by
  have hcall : ∃ i, st.call = .cancel i := by
    obtain ⟨i, _, _, _, hcall, -⟩ := h
    exact ⟨i, hcall⟩
  obtain ⟨i, hcall⟩ := hcall
  obtain ⟨ht, hturn⟩ := st.turned hs (hcall ▸ rfl)
  obtain ⟨c, hc, date, rfl, hlive, -, hterms⟩ := hturn.of_cancel hdone hcall
  obtain ⟨hstandalone, t, hle, ⟨x, hx, haddOn⟩, hall⟩ :=
    (Step.cancelsUnder_iff hs ht hcall hc hlive hterms).1 h
  have hxc : x.id ≠ c.id := fun hid => by
    obtain rfl := hs.unique hx hc hid
    have hkind := beq_iff_eq.1 haddOn.kind
    rw [hstandalone] at hkind
    cases hkind
  have hkept : c.cut date x = x := Term.cut_of_not_base hxc (by simp [hstandalone])
  intro hanchored
  rw [hterms] at hanchored
  obtain ⟨_, hmem, hbase⟩ :=
    hanchored c.bundle t ⟨x, List.mem_map.2 ⟨x, hx, hkept⟩, haddOn⟩
  obtain ⟨y, hy, rfl⟩ := List.mem_map.1 hmem
  have hold : y.Has t := Term.has_of_cut hbase.has
  obtain rfl := hs.unique hy hc (hall y hy ⟨hbase.bundle, hbase.kind, hold⟩)
  exact absurd (hbase.has.2 _ (Term.cut_self hlive)) (Int.not_lt.2 hle)

theorem Step.not_anchored_of_migrate (hs : s.Regular) (hdone : st.Succeeds s)
    (h : st.ImportsAdrift) : ¬ Anchored (st.after s).terms := by
  obtain ⟨migration, hcall, m, hm, a, ha, hcategory, p, hp, t, hhas, hnone⟩ := h
  obtain ⟨added, ids, -, -, hlands⟩ := (st.migrated hs hcall).2 hdone
  obtain ⟨b, -, hlands⟩ := exists_right_of_forall₂ hlands hm
  obtain ⟨x, hx, hbundle, himported⟩ := hlands.exists_term ha
  rw [himported.span, Option.mem_some_iff] at hp
  have haddOn : x.IsAddOnAt b t :=
    ⟨hbundle, beq_iff_eq.2 (himported.category.trans hcategory), hp ▸ hhas⟩
  intro hanchored
  obtain ⟨y, hy, hbase⟩ := hanchored b t ⟨x, hx, haddOn⟩
  obtain ⟨m', hm', himported⟩ := hlands.exists_migration hy hbase.bundle
  exact hnone m' hm' (himported.category ▸ hbase.kind) _ himported.span hbase.has

/-- A step that orphans leaves an add-on without a base plan. -/
theorem Step.orphaned (hs : s.Regular) (hcall : st.call.isTended) (h : st.Orphans s) :
    ∃ b t, (st.after s).activeAddOns b t ≠ [] ∧ (st.after s).activeBases b t = [] := by
  have hnot : ¬ Anchored (st.after s).terms := by
    obtain ⟨hdone, hadrift | hadrift | hadrift | hadrift⟩ := h
    · exact Step.not_anchored_of_creation hs hdone hadrift
    · exact Step.not_anchored_of_uncancel hs hdone hadrift
    · exact Step.not_anchored_of_cancel hs hdone hadrift
    · exact Step.not_anchored_of_migrate hs hdone hadrift
  rw [(Step.regular_of_tended hs hcall).anchored_iff] at hnot
  simpa using hnot

end Steps

/-! ## Runs -/

/-- Operations of subscriptions' lives, and imports, none of which orphans. -/
def tended (s : Store) (st : Step) : Prop := st.call.isTended ∧ ¬ st.Orphans s

theorem Run.anchored {s : Store} (h : Run tended {} s) : s.Regular ∧ Anchored s.terms := by
  have hstep : ∀ s st, tended s st → s.Regular ∧ Anchored s.terms →
      (st.after s).Regular ∧ Anchored (st.after s).terms := fun s st ha hs =>
    ⟨Step.regular_of_tended hs.1 ha.1, Step.anchored hs.1 ha.1 ha.2 hs.2⟩
  exact h.preserves hstep ⟨Store.regular_empty, by simp [Anchored, Store.terms]⟩

/-- **No orphan add-ons.** After steps none of which orphans, a bundle with an active add-on has an
active base-like subscription, at any instant. -/
theorem no_orphan_add_on {s : Store} (h : Run tended {} s) {b : BundleId} {t : Instant}
    (haddOn : s.activeAddOns b t ≠ []) : s.activeBases b t ≠ [] := by
  obtain ⟨hs, hanchored⟩ := h.anchored
  exact hs.anchored_iff.1 hanchored b t haddOn

/-! ## Examples -/

namespace Sample

/-- A call on some day, as of another. -/
def asked (date n : Nat) (call : Call) : Step :=
  ⟨engine, { caller with requested := some (day date) }, day n, call⟩

/-- A base plan from day 1 on and an add-on from day 5 on. The plan is cancelled for day 20, and the
add-on with it. -/
def supported : List Step :=
  [step 0 (.createBundle ⟨1⟩ "key"),
    step 1 (.createSubscription ⟨1⟩ ⟨"assault-rifle", .monthly, "DEFAULT"⟩),
    step 5 (.createSubscription ⟨1⟩ ⟨"telescopic-scope", .monthly, "DEFAULT"⟩),
    asked 20 6 (.cancel ⟨1⟩)]

theorem run_supported : Run tended {} (after supported) := by
  have htended (st : Step) (hst : st ∈ supported) : st.call.isTended := by
    revert st
    simp [supported, step, asked, Call.isTended, Call.isLifecycle]
  have hbundle : Run tended {} (after (supported.take 1)) := by
    refine .step _ (.refl _) ⟨htended _ (by simp [supported]), ?_⟩
    rintro ⟨-, ⟨_, _, _, hcall, -⟩ | ⟨_, _, _, hcall, -⟩ | ⟨_, _, _, _, hcall, -⟩ |
      ⟨_, hcall, -⟩⟩ <;> cases hcall
  have hbase : Run tended {} (after (supported.take 2)) := by
    refine .step _ hbundle ⟨htended _ (by simp [supported]), ?_⟩
    rintro ⟨-, ⟨_, _, sub, hcall, planned, hcategory, -⟩ | ⟨_, _, _, hcall, -⟩ |
      ⟨_, _, _, _, hcall, -⟩ | ⟨_, hcall, -⟩⟩ <;> cases hcall
    have hread : (engine.newSubscription caller (day 1) ⟨1⟩ ⟨"assault-rifle", .monthly, "DEFAULT"⟩
        (after (supported.take 1))).toOption.map (·.category) = some .base := by decide +kernel
    have hread : (Except.toOption (.ok sub : Except Error Subscription)).map (·.category) =
        some .base := planned ▸ hread
    rw [Except.toOption, Option.map_some, hcategory] at hread
    cases hread
  have haddOn : Run tended {} (after (supported.take 3)) := by
    refine .step _ hbase ⟨htended _ (by simp [supported]), ?_⟩
    rintro ⟨-, ⟨_, _, sub, hcall, planned, -, t, hle, hnil⟩ | ⟨_, _, _, hcall, -⟩ |
      ⟨_, _, _, _, hcall, -⟩ | ⟨_, hcall, -⟩⟩ <;> cases hcall
    have hterms : ({ start := day 1, finish := none, id := ⟨1⟩, bundle := ⟨1⟩, category := .base } :
        Term) ∈ (after (supported.take 2)).terms := by decide +kernel
    have hstart : day 1 ≤ sub.start.floorMillis := by
      obtain ⟨_, _, _, -, -, -, rfl⟩ := Engine.newSubscription_eq_ok planned
      show day 1 ≤ (day 5).floorMillis
      decide
    exact hbase.anchored.1.activeOf_ne_nil.2
      ⟨_, hterms, rfl, rfl, (Span.has_of_open rfl).2 (Int.le_trans hstart hle)⟩ hnil
  refine .step _ haddOn ⟨htended _ (by simp [supported]), ?_⟩
  rintro ⟨-, ⟨_, _, sub, hcall, -⟩ | ⟨_, _, _, hcall, -⟩ |
    ⟨_, sub, _, _, hcall, hsub, hstandalone, -⟩ | ⟨_, hcall, -⟩⟩ <;> cases hcall
  have hread : ((after (supported.take 3)).subscription? ⟨1⟩).map (·.category) = some .base := by
    decide +kernel
  have hread : (some sub).map (·.category) = some .base := hsub ▸ hread
  rw [Option.map_some, hstandalone] at hread
  cases hread

end Sample

/-- On day 7 the add-on is active, and so is the base plan. -/
theorem no_orphan_add_on_sample :
    (Sample.after Sample.supported).activeAddOns ⟨1⟩ (Sample.day 7) ≠ [] ∧
      (Sample.after Sample.supported).activeBases ⟨1⟩ (Sample.day 7) ≠ [] := by
  have haddOn : (Sample.after Sample.supported).activeAddOns ⟨1⟩ (Sample.day 7) ≠ [] := by
    decide +kernel
  exact ⟨haddOn, no_orphan_add_on Sample.run_supported haddOn⟩

namespace Sample

/-- The plan, with the product `pistol` as a standalone one. -/
def standalone (plan : Plan) : Plan :=
  if plan.product.name == "pistol" then
    { plan with product := ⟨"pistol", .standalone⟩ }
  else
    plan

/-- An engine that sells plans so. -/
def standaloneEngine : Engine :=
  { engine with
    catalog := { engine.catalog with
      findPlan spec date := (engine.catalog.findPlan spec date).map standalone } }

/-- An add-on is created for a base plan that is going to end on day 20. -/
def lateAddOn : List Step :=
  [step 0 (.createBundle ⟨1⟩ "key"),
    step 1 (.createSubscription ⟨1⟩ ⟨"assault-rifle", .monthly, "DEFAULT"⟩),
    asked 20 1 (.cancel ⟨1⟩),
    step 10 (.createSubscription ⟨1⟩ ⟨"telescopic-scope", .monthly, "DEFAULT"⟩)]

/-- An add-on that is to end with its base plan is uncancelled alone. -/
def uncancelledAlone : List Step := supported ++ [step 7 (.uncancel ⟨2⟩)]

/-- An add-on outlives its base plan under a standalone subscription, which is then cancelled. -/
def cancelledUnder : List Step :=
  [step 0 (.createBundle ⟨1⟩ "key"),
    step 1 (.createSubscription ⟨1⟩ ⟨"assault-rifle", .monthly, "DEFAULT"⟩),
    asked 20 1 (.cancel ⟨1⟩),
    { step 20 (.createSubscription ⟨1⟩ ⟨"pistol", .monthly, "DEFAULT"⟩) with
      engine := standaloneEngine },
    step 10 (.createSubscription ⟨1⟩ ⟨"telescopic-scope", .monthly, "DEFAULT"⟩),
    step 22 (.cancel ⟨2⟩)]

/-- A base plan is imported that ended on day 20, and an add-on that did not. -/
def importedAdrift : List Step :=
  [step 0 (.migrate ⟨⟨1⟩, [⟨"key",
    [⟨.base, [⟨"assault-rifle-monthly", .evergreen, "DEFAULT", day 10, some (day 20)⟩], none⟩,
      ⟨.addOn, [⟨"telescopic-scope-monthly", .evergreen, "DEFAULT", day 10, none⟩], none⟩]⟩]⟩)]

/-- Such steps lead to an add-on that is active on day 25 without a base plan. -/
def Adrift (steps : List Step) : Prop :=
  Run (fun _ st => st.call.isTended) {} (after steps) ∧
    (after steps).activeAddOns ⟨1⟩ (day 25) ≠ [] ∧ (after steps).activeBases ⟨1⟩ (day 25) = []

/-- Each kind of step that orphans does so. -/
theorem adrift_orphans : Adrift lateAddOn ∧ Adrift uncancelledAlone ∧ Adrift cancelledUnder ∧
    Adrift importedAdrift := by
  refine ⟨⟨?_, ?_⟩, ⟨?_, ?_⟩, ⟨?_, ?_⟩, ⟨?_, ?_⟩⟩
  · exact run_after (by simp [lateAddOn, step, asked, Call.isTended, Call.isLifecycle])
  · decide +kernel
  · exact run_after (by
      simp [uncancelledAlone, supported, step, asked, Call.isTended, Call.isLifecycle])
  · decide +kernel
  · exact run_after (by simp [cancelledUnder, step, asked, Call.isTended, Call.isLifecycle])
  · decide +kernel
  · exact run_after (by simp [importedAdrift, step, Call.isTended])
  · decide +kernel

end Sample

end Tenure
