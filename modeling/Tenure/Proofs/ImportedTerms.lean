import Tenure.Proofs.TermSteps

/-!
# How imports add terms

An import adds the terms that its cases describe. A subscription runs from the date of its first
case to the end of its last one (`SubscriptionMigration.span?`), and what was imported for one
bundle is all that there is of that bundle (`Wrote.terms_of_migrate`).

An end in front of the first case ends nothing: such a subscription goes on for ever.
-/

namespace Tenure

/-! ## Spans of cases -/

namespace SubscriptionMigration

variable (m : SubscriptionMigration)

/-- The end of the last case. -/
def finish? : Option Instant :=
  (sortBy MigrationCase.dateLe m.cases).getLast?.bind (·.finish)

/-- The span of the cases, in milliseconds. -/
def span? : Option Span :=
  m.firstDate?.map fun start =>
    ⟨start.floorMillis, (m.finish?.map (·.floorMillis)).filter (start.floorMillis ≤ ·)⟩

end SubscriptionMigration

namespace Catalog

variable {catalog : Catalog} {now : Instant}

theorem alignEach_type {previous last : Option PlanPlace} {cs : List MigrationCase}
    {events : List TimedPayload} (h : catalog.alignEach now previous cs = .ok (events, last)) :
    ∀ e ∈ events, e.payload.type ≠ .cancel ∧ e.payload.type ≠ .uncancel ∧
      e.payload.type ≠ .migrateBilling := by
  induction cs generalizing previous events with
  | nil =>
    cases h
    simp
  | cons c cs ih =>
    simp only [alignEach, bind_eq_ok, pure_eq_ok, Prod.mk.injEq] at h
    obtain ⟨place, -, ⟨rest, last'⟩, hrest, rfl, rfl⟩ := h
    intro e he
    rcases List.mem_cons.1 he with rfl | he
    · exact MigrationCase.payload_type _ _ _
    · exact ih hrest e he

/-- What follows the last case cancels at its end, and never uncancels. -/
theorem alignEnd_type {last : MigrationCase} {place : Option PlanPlace}
    {ending : List TimedPayload} (h : alignEnd last place = .ok ending) :
    (∀ e ∈ ending, e.payload.type ≠ .uncancel ∧ e.payload.type ≠ .migrateBilling) ∧
      ∀ date, (∃ e ∈ ending, e.payload.type = .cancel ∧ e.effective = date) ↔
        last.finish = some date := by
  unfold alignEnd at h
  split at h
  next finish hfinish =>
    cases h
    simp [hfinish, Payload.type]
  next hfinish =>
    obtain ⟨chain, -, rfl⟩ := map_eq_ok.1 h
    simp [hfinish, Payload.type]
  next hfinish =>
    cases h
    simp [hfinish]

theorem alignCases_type {cases : List MigrationCase} {events : List TimedPayload}
    (h : catalog.alignCases cases now = .ok events) :
    (∀ e ∈ events, e.payload.type ≠ .uncancel ∧ e.payload.type ≠ .migrateBilling) ∧
      ∀ date, (∃ e ∈ events, e.payload.type = .cancel ∧ e.effective = date) ↔
        (sortBy MigrationCase.dateLe cases).getLast?.bind (·.finish) = some date := by
  obtain ⟨last, aligned, place, ending, hlast, haligned, hending, rfl⟩ := alignCases_eq_ok h
  have hcases := alignEach_type haligned
  obtain ⟨huncancel, hcancel⟩ := alignEnd_type hending
  refine ⟨fun e he => ?_, fun date => ?_⟩
  · rcases List.mem_append.1 he with he | he
    · exact (hcases e he).2
    · exact huncancel e he
  · rw [hlast, Option.bind_some, ← hcancel]
    constructor
    · rintro ⟨e, he, htype, hdate⟩
      exact ⟨e, (List.mem_append.1 he).resolve_left fun he => (hcases e he).1 htype, htype, hdate⟩
    · rintro ⟨e, he, h⟩
      exact ⟨e, List.mem_append_right _ he, h⟩

end Catalog

namespace ImportContext

variable {cx : ImportContext} {bundle : BundleId} {key : String} {bundleStart : Option Instant}
  {supply : Supply} {m : SubscriptionMigration} {sub : Subscription}

/-- An import cancels a subscription at the end of its last case, and never uncancels. -/
theorem planSubscription_type
    (h : cx.planSubscription bundle key bundleStart supply m = .ok sub) :
    (∀ e ∈ sub.events, e.type ≠ .uncancel) ∧
      ∀ date, (∃ e ∈ sub.events, e.type = .cancel ∧ e.effective = date) ↔
        m.finish? = some date := by
  obtain ⟨cases, start, bundleStart', hcases, -, rfl⟩ := planSubscription_eq_ok h
  obtain ⟨huncancel, hcancel⟩ := Catalog.alignCases_type hcases
  have hevents {e : Event} (he : e ∈ cx.stamp.events supply.event (cases.map fun e =>
      (⟨supply.subscription 0, e.effective, e.payload⟩ : Draft))) :
      ∃ c ∈ cases, e.type = c.payload.type ∧ e.effective = c.effective := by
    obtain ⟨d, hd, k, -, rfl⟩ := Stamp.mem_events he
    obtain ⟨c, hc, rfl⟩ := List.mem_map.1 hd
    exact ⟨c, hc, rfl, rfl⟩
  refine ⟨fun e he => ?_, fun date => ?_⟩
  · rcases type_of_mem_addMarker he with he | hmarker
    · obtain ⟨c, hc, htype, -⟩ := hevents he
      exact htype ▸ (huncancel c hc).1
    · rw [hmarker]
      nofun
  · rw [SubscriptionMigration.finish?, ← hcancel]
    constructor
    · rintro ⟨e, he, htype, rfl⟩
      have he := (type_of_mem_addMarker he).resolve_right fun hmarker => by simp [hmarker] at htype
      obtain ⟨c, hc, hsame, hdate⟩ := hevents he
      exact ⟨c, hc, hsame ▸ htype, hdate.symm⟩
    · rintro ⟨c, hc, htype, rfl⟩
      obtain ⟨k, hmem⟩ := cx.stamp.exists_event supply.event (List.mem_map_of_mem
        (f := fun e => (⟨supply.subscription 0, e.effective, e.payload⟩ : Draft)) hc)
      exact ⟨_, sublist_addMarker.subset hmem, htype, rfl⟩

theorem planSubscription_span {t : Store} {n : Nat}
    (h : cx.planSubscription bundle key bundleStart supply m = .ok sub) (ht : t.Tidy)
    (hlaid : Laid n (t.shown (sub.toSubscriptionRecord.filed 1)) (sub.events.map (·, 1))) :
    m.span? = some (t.term (sub.toSubscriptionRecord.filed 1)).toSpan := by
  obtain ⟨huncancel, hcancel⟩ := planSubscription_type h
  have hend : endOf sub.start.floorMillis (t.shown (sub.toSubscriptionRecord.filed 1)) =
      (m.finish?.map (·.floorMillis)).filter (sub.start.floorMillis ≤ ·) := by
    refine endOf_of_cancels (Store.shown_ids ht _) (fun f hf => ?_) fun date => ?_
    · obtain ⟨e, he, htype⟩ := hlaid.mem_type hf
      exact htype ▸ huncancel e he
    · rw [Option.map_eq_some_iff]
      constructor
      · rintro ⟨f, hf, htype, rfl⟩
        obtain ⟨e, he, k, -, rfl⟩ := exists_right_of_forall₂ hlaid.forall₂ hf
        exact ⟨e.effective, (hcancel _).1 ⟨e, he, htype, rfl⟩, rfl⟩
      · rintro ⟨d, hd, rfl⟩
        obtain ⟨e, he, htype, rfl⟩ := (hcancel _).2 hd
        obtain ⟨f, hf, k, -, rfl⟩ := exists_left_of_forall₂ hlaid.forall₂ he
        exact ⟨_, hf, htype, rfl⟩
  have hfirst : m.firstDate? = some sub.start := by
    obtain ⟨cases, start, bundleStart', hcases, hstart, rfl⟩ := planSubscription_eq_ok h
    obtain ⟨first, rest, rfl, hhead, -, -⟩ := Catalog.alignCases_starts hcases
    exact hhead.trans (by simpa using hstart)
  rw [SubscriptionMigration.span?, hfirst, Option.map_some, ← hend]
  rfl

end ImportContext

/-! ## Terms of an import -/

/-- The term is what the import says of a subscription. -/
structure Term.Imported (x : Term) (m : SubscriptionMigration) : Prop where
  span : m.span? = some x.toSpan
  category : x.category = m.category

/-- The terms of the bundle are those that the import describes, and no others. -/
def BundleMigration.LandsAs (m : BundleMigration) (b : BundleId) (xs : List Term) : Prop :=
  List.Forall₂ (fun m x => Term.Imported x m) (sortBy SubscriptionMigration.le m.subscriptions)
    (xs.filter (·.bundle == b))

namespace BundleMigration.LandsAs

variable {m : BundleMigration} {b : BundleId} {xs : List Term}

theorem exists_migration (h : m.LandsAs b xs) {x : Term} (hx : x ∈ xs) (hb : x.bundle = b) :
    ∃ m' ∈ m.subscriptions, x.Imported m' := by
  obtain ⟨m', hm', himported⟩ :=
    exists_left_of_forall₂ h (List.mem_filter.2 ⟨hx, by simpa using hb⟩)
  exact ⟨m', mem_sortBy.1 hm', himported⟩

theorem exists_term (h : m.LandsAs b xs) {m' : SubscriptionMigration}
    (hm' : m' ∈ m.subscriptions) : ∃ x ∈ xs, x.bundle = b ∧ x.Imported m' := by
  obtain ⟨x, hx, himported⟩ := exists_right_of_forall₂ h (mem_sortBy.2 hm')
  obtain ⟨hx, hb⟩ := List.mem_filter.1 hx
  exact ⟨x, hx, by simpa using hb, himported⟩

end BundleMigration.LandsAs

theorem Store.Regular.filter_terms_of_fresh {s : Store} (hs : s.Regular) {b : BundleId}
    (h : ∀ c ∈ s.bundles, c.id ≠ b) : s.terms.filter (·.bundle == b) = [] := by
  refine filter_key_of_not_mem fun x hx hb => ?_
  obtain ⟨r, hr, rfl⟩ := Store.mem_terms.1 hx
  exact hs.sound.tidy.bundle_ne hr h hb

theorem ImportContext.Plans.bundle_eq {cx : ImportContext} {supply : Supply}
    {m : BundleMigration} {image : BundleImage} (h : cx.Plans supply m image) :
    ∀ sub ∈ image.subscriptions, sub.bundle = image.bundle.id := by
  intro sub hsub
  obtain ⟨m', -, _, _, _, _, hplan⟩ := exists_left_of_forall₂ h hsub
  obtain ⟨_, _, _, -, -, rfl⟩ := planSubscription_eq_ok hplan
  rfl

/-- The store has more terms, of bundles that the import describes. -/
def Store.Imports (s t : Store) (migration : AccountMigration) : Prop :=
  ∃ added ids, t.terms = s.terms ++ added ∧ (∀ x ∈ added, x.bundle ∈ ids) ∧
    List.Forall₂ (fun m b => BundleMigration.LandsAs m b t.terms) migration.bundles ids

theorem Wrote.terms_of_migrate {s t : Store} {e : Engine} {context : CallContext} {now : Instant}
    {migration : AccountMigration} (hs : s.Regular)
    (h : Wrote s t ⟨e, context, now, .migrate migration⟩) :
    t.Regular ∧ s.Imports t migration := by
  have ht := h.sound hs.sound
  cases h with
  | @migrate _ _ _ _ images planned rows =>
  have hplanned := planMigration_eq_ok planned
  obtain ⟨⟨hi, hscratch⟩, hmem⟩ := ImportContext.planBundles_scratch
      (Engine.supply_fresh _ _).bundles.injective (Engine.supply_fresh _ _).events.injective
      hplanned
  obtain ⟨hnodup, hfresh, -, hplans⟩ := ImportContext.planBundles_plans
      (Engine.supply_fresh _ _).bundles.injective (Engine.supply_fresh _ _).events.injective
      hplanned
  obtain ⟨hregular, hlaid, hterms⟩ := rows.terms_scratch hs ht hscratch.own
    (fun sub hsub => by
      obtain ⟨_, _, _, _, _, _, _, _, hplan⟩ := hmem sub hsub
      exact ImportContext.planSubscription_starts hplan)
    (fun sub hsub => by
      obtain ⟨_, _, _, _, _, _, _, _, hplan⟩ := hmem sub hsub
      exact ImportContext.planSubscription_starts_first hplan)
  have hown : ∀ image ∈ images, ∀ sub ∈ image.subscriptions, sub.bundle = image.bundle.id := by
    intro image himage
    obtain ⟨m, -, hplan⟩ := exists_left_of_forall₂ hplans himage
    exact hplan.bundle_eq
  refine ⟨hregular, _, images.map (·.bundle.id), hterms, fun x hx => ?_,
    List.forall₂_map_right_iff.2 (forall₂_imp_of_mem hplans fun m _ image himage hplan => ?_)⟩
  · obtain ⟨sub, hsub, rfl⟩ := List.mem_map.1 hx
    obtain ⟨image, himage, hsub⟩ := List.mem_flatMap.1 hsub
    exact List.mem_map.2 ⟨image, himage, (hown image himage sub hsub).symm⟩
  · obtain ⟨n, hn⟩ := hfresh image himage
    have hunused : ∀ c ∈ s.bundles, c.id ≠ image.bundle.id := fun c hc =>
      hn ▸ (Engine.supply_fresh _ _).bundles.ne c hc n
    have hnew : t.terms.filter (·.bundle == image.bundle.id) =
        image.subscriptions.map fun sub => t.term (sub.toSubscriptionRecord.filed 1) := by
      have hfilter := filter_key_flatMap (f := (·.subscriptions)) (o := fun sub => sub.bundle)
        hnodup hown himage
      rw [hterms, List.filter_append, hs.filter_terms_of_fresh hunused, List.nil_append,
        List.filter_map]
      exact congrArg (List.map _) hfilter
    rw [BundleMigration.LandsAs, hnew, List.forall₂_map_right_iff]
    refine forall₂_imp_of_mem hplan fun m' _ sub hsub hplan => ?_
    obtain ⟨bundleStart, _, _, _, hplan⟩ := hplan
    refine ⟨ImportContext.planSubscription_span hplan ht.tidy
      (hlaid sub (List.mem_flatMap.2 ⟨image, himage, hsub⟩)), ?_⟩
    obtain ⟨_, _, _, -, -, rfl⟩ := ImportContext.planSubscription_eq_ok hplan
    rfl

/-- An import that is carried out adds the terms that it describes. -/
theorem Step.migrated {s : Store} (hs : s.Regular) {st : Step} {migration : AccountMigration}
    (hcall : st.call = .migrate migration) :
    (st.after s).Regular ∧ (st.Succeeds s → s.Imports (st.after s) migration) := by
  obtain ⟨e, context, now, call⟩ := st
  cases hcall
  rcases Step.idle_or_writes hs.sound ⟨e, context, now, .migrate migration⟩ with
    hidle | ⟨hdone, hwrote⟩
  · rw [hidle.after]
    refine ⟨hs, fun hdone => ?_⟩
    obtain ⟨_, _, hcall⟩ := hidle.dryRun hdone
    cases hcall
  · obtain ⟨hregular, himports⟩ := hwrote.terms_of_migrate hs
    exact ⟨hregular, fun _ => himports⟩

end Tenure
