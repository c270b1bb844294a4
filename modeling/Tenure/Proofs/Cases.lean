import Mathlib.Data.List.Perm.Basic
import Tenure.Proofs.ImportedTerms
import Tenure.Proofs.Positions

/-!
# Imports show their cases

At every date within a case an imported subscription stands on the plan of the case, in the plan's
first phase of the type that the case names. From a last case without end it goes on through the
plan's later phases, laid out from the date of the case.

The price list is the one of the case with which the subscription came onto its plan
(`Catalog.boarding`): a further case on the same plan is written as a phase, and a phase has no
price list. An end cuts off whatever lies behind it, unless it lies in front of the first case,
where there is nothing to end.
-/

namespace Tenure

/-! ## What cases say -/

namespace Catalog

/-- The name of the plan that a case is on. -/
def planOf? (catalog : Catalog) (now : Instant) (c : MigrationCase) : Option String :=
  (catalog.findPlanByName c.plan now).toOption.map (·.name)

/-- The first of the cases up to `c` since which the plan has been that of `c`. -/
def boarding (catalog : Catalog) (now : Instant) (before : List MigrationCase)
    (c : MigrationCase) : MigrationCase :=
  (before.reverse.takeWhile fun b => catalog.planOf? now b == catalog.planOf? now c).getLastD c

end Catalog

/-- The phase that a case is on at a date: that of its place, or the one that its plan has come to
if the case is the last one and has no end. -/
def PlanPlace.phaseAt (place : PlanPlace) (c : MigrationCase) (after : List MigrationCase)
    (t : Instant) : Except Error Phase :=
  match after, c.finish with
  | [], none =>
    (phaseChain place.plan place.index c.effective).map fun chain => (chain.moveTo t).current.phase
  | _, _ => .ok place.phase

namespace SubscriptionMigration

variable (m : SubscriptionMigration)

/-- All dates of the cases are whole milliseconds. -/
def InMillis : Prop :=
  ∀ c ∈ m.cases, c.effective.floorMillis = c.effective ∧ ∀ f ∈ c.finish, f.floorMillis = f

instance : Decidable m.InMillis := inferInstanceAs (Decidable (∀ c ∈ m.cases, _ ∧ _))

/-- The end that the subscription comes to. One in front of the first case ends nothing. -/
def endDate? : Option Instant := m.finish?.filter fun f => m.firstDate?.any (· ≤ f)

/-- The subscription shows the cases, and is cancelled when they come to their end. -/
structure ShownBy (catalog : Catalog) (now : Instant) (sub : Subscription) : Prop where
  category : sub.category = m.category
  start : m.firstDate? = some sub.start
  held : ∀ before c after, sortBy MigrationCase.dateLe m.cases = before ++ c :: after →
    ∀ t, c.effective ≤ t → (∀ next ∈ after.head?, t < next.effective) →
      (∀ f ∈ m.endDate?, t < f) → ∃ place phase, catalog.placeOf now c = .ok place ∧
        place.phaseAt c after t = .ok phase ∧ sub.targetAt? t =
          some ⟨place.plan.name, phase.name, (catalog.boarding now before c).priceList⟩
  ended : ∀ f ∈ m.endDate?, ∀ t, f ≤ t → (sub.standingAt t).any (·.isCancelled) = true

variable {m}

theorem InMillis.span? (h : m.InMillis) :
    m.span? = m.firstDate?.map fun start => ⟨start, m.endDate?⟩ := by
  rw [SubscriptionMigration.span?, endDate?]
  cases hfirst : m.firstDate? with
  | none => rfl
  | some start =>
    obtain ⟨c, hc, rfl⟩ := Option.map_eq_some_iff.1 hfirst
    have hstart := (h c (mem_sortBy.1 (List.mem_of_head? hc))).1
    have hfinish : m.finish?.map (·.floorMillis) = m.finish? := by
      cases hlast : m.finish? with
      | none => rfl
      | some f =>
        obtain ⟨last, hmem, hf⟩ := Option.bind_eq_some_iff.1 hlast
        exact congrArg some ((h last (mem_sortBy.1 (List.mem_of_getLast? hmem))).2 f hf)
    rw [Option.map_some, Option.map_some, hfinish, hstart]
    rfl

end SubscriptionMigration

/-! ## Cases as events -/

namespace Catalog

variable {catalog : Catalog} {now t : Instant} {previous last : Option PlanPlace}
  {cs ds before after : List MigrationCase} {c : MigrationCase} {events : List TimedPayload}

theorem alignEach_append (h : catalog.alignEach now previous (cs ++ ds) = .ok (events, last)) :
    ∃ front mid back, catalog.alignEach now previous cs = .ok (front, mid) ∧
      catalog.alignEach now mid ds = .ok (back, last) ∧ events = front ++ back := by
  induction cs generalizing previous events with
  | nil => exact ⟨[], previous, events, rfl, h, rfl⟩
  | cons c cs ih =>
    simp only [List.cons_append, alignEach, bind_eq_ok, pure_eq_ok, Prod.mk.injEq] at h ⊢
    obtain ⟨place, hplace, ⟨rest, last'⟩, hrest, rfl, rfl⟩ := h
    obtain ⟨front, mid, back, hfront, hback, rfl⟩ := ih hrest
    exact ⟨_, mid, back, ⟨place, hplace, (front, mid), hfront, rfl, rfl⟩, hback, rfl⟩

theorem planOf?_of_placeOf {place : PlanPlace} (h : catalog.placeOf now c = .ok place) :
    catalog.planOf? now c = some place.plan.name := by
  rw [planOf?, (placeOf_eq_ok h).1]
  rfl

theorem boarding_concat (catalog : Catalog) (now : Instant) (before : List MigrationCase)
    (b c : MigrationCase) : catalog.boarding now (before ++ [b]) c =
      if catalog.planOf? now b = catalog.planOf? now c then catalog.boarding now before b
      else c := by
  unfold boarding
  rw [List.reverse_append, List.reverse_singleton, List.singleton_append, List.takeWhile_cons]
  by_cases hsame : catalog.planOf? now b = catalog.planOf? now c
  · rw [if_pos (by simpa using hsame), if_pos hsame, List.getLastD_cons, hsame]
  · rw [if_neg (by simpa using hsame), if_neg hsame]
    rfl

/-- Cases lead to the place of the last one, on the price list with which its plan was entered. -/
theorem alignEach_leads (h : catalog.alignEach now none (before ++ [c]) = .ok (events, last)) :
    ∃ place, catalog.placeOf now c = .ok place ∧ last = some place ∧
      leads none (events.map (·.payload)) =
        some ⟨place.plan.name, place.phase.name, (catalog.boarding now before c).priceList⟩ := by
  induction before using List.reverseRecOn generalizing c events last with
  | nil =>
    simp only [List.nil_append, alignEach, bind_eq_ok, pure_eq_ok, Prod.mk.injEq] at h
    obtain ⟨place, hplace, _, hnil, rfl, rfl⟩ := h
    cases hnil
    exact ⟨place, hplace, rfl, rfl⟩
  | append_singleton before b ih =>
    obtain ⟨front, mid, back, hfront, hback, rfl⟩ := alignEach_append h
    obtain ⟨held, hheld, rfl, hleads⟩ := ih hfront
    simp only [alignEach, bind_eq_ok, pure_eq_ok, Prod.mk.injEq] at hback
    obtain ⟨place, hplace, _, hnil, rfl, rfl⟩ := hback
    cases hnil
    refine ⟨place, hplace, rfl, ?_⟩
    rw [List.map_append, leads_append, hleads, boarding_concat, planOf?_of_placeOf hheld,
      planOf?_of_placeOf hplace]
    simp only [Option.map_some, MigrationCase.payload, Option.some_inj]
    split
    next hsame =>
      rw [← hsame]
      rfl
    next hother => rfl

/-- What follows the last case is a cancellation, or the phases of its plan behind it, which begin
no earlier. -/
theorem alignEnd_date {last : MigrationCase} {place : Option PlanPlace}
    {ending : List TimedPayload} (h : alignEnd last place = .ok ending) :
    (∃ f ∈ last.finish, ending = [⟨f, .cancel⟩]) ∨
      last.finish = none ∧ ending.Pairwise (fun a b => a.effective ≤ b.effective) ∧
        ∀ e ∈ ending, last.effective ≤ e.effective := by
  unfold alignEnd at h
  split at h
  next finish hfinish =>
    cases h
    exact .inl ⟨finish, hfinish, rfl⟩
  next place hnone =>
    obtain ⟨chain, hchain, rfl⟩ := map_eq_ok.1 h
    have hphases := phaseChain_eq_ok hchain
    obtain ⟨hsorted, hle⟩ := layOut_sorted hphases
    refine .inr ⟨hnone, List.pairwise_map.2 (List.pairwise_cons.1 hsorted).2, fun e he => ?_⟩
    obtain ⟨p, hp, rfl⟩ := List.mem_map.1 he
    exact hle p (List.mem_cons_of_mem _ hp)
  next hnone =>
    cases h
    exact .inr ⟨hnone, .nil, by simp⟩

theorem filter_of_ahead (h : ∀ e ∈ events, t < e.effective) :
    events.filter (·.effective ≤ t) = [] :=
  List.filter_eq_nil_iff.2 fun e he hbegun =>
    absurd (of_decide_eq_true hbegun) (Int.not_le.2 (h e he))

/-- Behind a last case with an end nothing leads on, nor does anything before its date. -/
theorem leads_alignEnd_of_behind {last : MigrationCase} {place : Option PlanPlace}
    {ending : List TimedPayload} (h : alignEnd last place = .ok ending)
    (hbehind : last.finish ≠ none ∨ t < last.effective) (target : Option Target) :
    leads target ((ending.filter (·.effective ≤ t)).map (·.payload)) = target := by
  rcases alignEnd_date h with ⟨f, -, rfl⟩ | ⟨hnone, -, hle⟩
  · rw [List.filter_cons]
    split <;> rfl
  · have hlt := hbehind.resolve_left (not_not_intro hnone)
    rw [filter_of_ahead fun e he => Int.lt_of_lt_of_le hlt (hle e he)]
    rfl

theorem leads_alignEnd {last : MigrationCase} {place : PlanPlace} {ending : List TimedPayload}
    (h : alignEnd last (some place) = .ok ending) (hplace : catalog.placeOf now last = .ok place)
    {target : Target} (htarget : target.phase = place.phase.name) (t : Instant) :
    ∃ phase, place.phaseAt last [] t = .ok phase ∧
      leads (some target) ((ending.filter (·.effective ≤ t)).map (·.payload)) =
        some { target with phase := phase.name } := by
  cases hfinish : last.finish with
  | some f =>
    refine ⟨place.phase, by simp only [PlanPlace.phaseAt, hfinish], ?_⟩
    rw [leads_alignEnd_of_behind h (.inl (by simp [hfinish])), ← htarget]
  | none =>
    simp only [alignEnd, hfinish] at h
    obtain ⟨chain, hchain, rfl⟩ := map_eq_ok.1 h
    refine ⟨(chain.moveTo t).current.phase, by
      simp only [PlanPlace.phaseAt, hfinish, hchain, Except.map], ?_⟩
    have hfirst : some place.phase = some chain.current.phase :=
      (placeOf_eq_ok hplace).2.symm.trans (phaseChain_current hchain).1
    have hnames : ((chain.upcoming.map fun p =>
        (⟨p.start, .phase p.phase.name⟩ : TimedPayload)).filter (·.effective ≤ t)).map (·.payload) =
        ((chain.upcoming.filter (·.start ≤ t)).map (·.phase.name)).map .phase := by
      rw [List.filter_map, List.map_map, List.map_map]
      rfl
    rw [hnames, leads_phases, htarget, Option.some.inj hfirst, List.getLastD_map,
      Schedule.moveTo, Schedule.seenFrom_current]

/-- At a date within a case the events so far lead to the place of the case, or on from there if it
is the last one and has no end. -/
theorem alignCases_held {cases : List MigrationCase} (h : catalog.alignCases cases now = .ok events)
    (hsplit : sortBy MigrationCase.dateLe cases = before ++ c :: after) (hle : c.effective ≤ t)
    (hnext : ∀ next ∈ after.head?, t < next.effective) :
    ∃ place phase, catalog.placeOf now c = .ok place ∧ place.phaseAt c after t = .ok phase ∧
      leads none ((events.filter (·.effective ≤ t)).map (·.payload)) =
        some ⟨place.plan.name, phase.name, (catalog.boarding now before c).priceList⟩ := by
  obtain ⟨last, aligned, place, ending, hlast, haligned, hending, rfl⟩ := alignCases_eq_ok h
  have hsorted := MigrationCase.pairwise_sortBy cases
  rw [hsplit] at haligned hlast hsorted
  rw [List.append_cons] at haligned
  obtain ⟨front, mid, back, hfront, hback, rfl⟩ := alignEach_append haligned
  obtain ⟨held, hheld, rfl, hleads⟩ := alignEach_leads hfront
  obtain ⟨-, hfrom, hcross⟩ := List.pairwise_append.1 hsorted
  have hbegun : front.filter (·.effective ≤ t) = front := by
    refine List.filter_eq_self.2 fun e he => ?_
    obtain ⟨b, hb, hdate⟩ := List.mem_map.1 (alignEach_dates hfront ▸ List.mem_map_of_mem he)
    rcases List.mem_append.1 hb with hb | hb
    · exact decide_eq_true (hdate ▸ Int.le_trans (hcross b hb c (by simp)) hle)
    · rw [List.mem_singleton.1 hb] at hdate
      exact decide_eq_true (hdate ▸ hle)
  rw [List.append_assoc, List.filter_append, hbegun, List.map_append, leads_append, hleads]
  cases after with
  | nil =>
    cases hback
    rw [List.getLast?_append_of_ne_nil _ (by simp), List.getLast?_singleton] at hlast
    cases hlast
    let target : Target :=
      ⟨held.plan.name, held.phase.name, (catalog.boarding now before c).priceList⟩
    obtain ⟨phase, hphase, htail⟩ :=
      leads_alignEnd hending hheld (show target.phase = held.phase.name from rfl) t
    exact ⟨held, phase, hheld, hphase, htail⟩
  | cons next after =>
    -- All further cases lie ahead, and so does what comes behind the last of them.
    have hlt := hnext next rfl
    have hlater : ∀ d ∈ next :: after, t < d.effective := fun d hd => by
      rcases List.mem_cons.1 hd with rfl | hd
      · exact hlt
      · exact Int.lt_of_lt_of_le hlt ((List.pairwise_cons.1 (List.pairwise_cons.1 hfrom).2).1 d hd)
    have hahead : ∀ e ∈ back, t < e.effective := fun e he => by
      obtain ⟨d, hd, hdate⟩ := List.mem_map.1 (alignEach_dates hback ▸ List.mem_map_of_mem he)
      exact hdate ▸ hlater d hd
    have hmem : last ∈ next :: after := by
      refine List.mem_of_getLast? ?_
      rwa [List.append_cons, List.getLast?_append_of_ne_nil _ (by simp)] at hlast
    rw [List.filter_append, filter_of_ahead hahead, List.nil_append,
      leads_alignEnd_of_behind hending (.inr (hlater last hmem))]
    exact ⟨held, held.phase, hheld, rfl, rfl⟩

theorem alignCases_ascending {cases : List MigrationCase}
    (h : catalog.alignCases cases now = .ok events) :
    events.Pairwise fun a b => b.payload.type ≠ .cancel → a.effective ≤ b.effective := by
  obtain ⟨last, aligned, place, ending, hlast, haligned, hending, rfl⟩ := alignCases_eq_ok h
  obtain ⟨haligned, hbefore⟩ := alignEach_ascending haligned
  have hmoves {es : List TimedPayload} (hes : es.Pairwise fun a b => a.effective ≤ b.effective) :
      es.Pairwise fun a b => b.payload.type ≠ .cancel → a.effective ≤ b.effective :=
    hes.imp fun {a b} (hle : a.effective ≤ b.effective) (_ : b.payload.type ≠ .cancel) => hle
  rcases alignEnd_date hending with ⟨f, -, rfl⟩ | ⟨-, hascending, hbehind⟩
  · refine List.pairwise_append.2 ⟨hmoves haligned, List.pairwise_singleton _ _,
      fun a _ b hb hcancel => ?_⟩
    rw [List.mem_singleton.1 hb] at hcancel
    exact (hcancel rfl).elim
  · exact List.pairwise_append.2 ⟨hmoves haligned, hmoves hascending,
      fun a ha b hb _ => Int.le_trans (hbefore last hlast a ha) (hbehind b hb)⟩

end Catalog

/-! ## Imported subscriptions -/

namespace ImportContext

variable {cx : ImportContext} {bundle : BundleId} {key : String} {bundleStart : Option Instant}
  {supply : Supply} {m : SubscriptionMigration} {sub : Subscription} {t : Store} {n : Nat}

theorem planSubscription_ascending
    (h : cx.planSubscription bundle key bundleStart supply m = .ok sub) :
    (sub.events.filter (·.isMove)).Pairwise fun a b => a.effective ≤ b.effective := by
  obtain ⟨cases, start, bundleStart', hcases, -, rfl⟩ := planSubscription_eq_ok h
  have hdrafts : ((cx.stamp.events supply.event (cases.map fun e =>
      (⟨supply.subscription 0, e.effective, e.payload⟩ : Draft))).map fun e =>
        (e.effective, e.payload)).Pairwise fun a b => b.2.type ≠ .cancel → a.1 ≤ b.1 := by
    rw [Stamp.map_draft_events, List.map_map]
    exact List.pairwise_map.2 (Catalog.alignCases_ascending hcases)
  rw [filter_isMove_addMarker]
  refine ((List.pairwise_map.1 hdrafts).filter _).imp_of_mem fun {a b} _ hb hle => ?_
  refine hle fun hcancel => ?_
  have hmove := (List.mem_filter.1 hb).2
  rw [Event.isMove, show b.type = .cancel from hcancel] at hmove
  cases hmove

/-- The course of an imported subscription is where the cases so far lead to. -/
theorem planSubscription_course
    (h : cx.planSubscription bundle key bundleStart supply m = .ok sub) (hm : m.InMillis)
    (ht : t.Tidy)
    (hlaid : Laid n (t.shown (sub.toSubscriptionRecord.filed 1)) (sub.events.map (·, 1))) :
    ∃ events, cx.catalog.alignCases m.cases cx.stamp.now = .ok events ∧ ∀ date,
      courseAt (t.shown (sub.toSubscriptionRecord.filed 1)) date =
        leads none ((events.filter (·.effective ≤ date)).map (·.payload)) := by
  have hdate := planSubscription_ascending h
  obtain ⟨events, start, bundleStart', hevents, -, rfl⟩ := planSubscription_eq_ok h
  refine ⟨events, hevents, fun date => ?_⟩
  have hdates : ∀ e ∈ events, e.effective.floorMillis = e.effective :=
    Catalog.alignCases_dated Duration.keeps_millis hm hevents
  have hmillis : events.filter (·.effective.floorMillis ≤ date) =
      events.filter (·.effective ≤ date) :=
    List.filter_congr fun e he => by rw [hdates e he]
  have hdown : ∀ e ∈ (cx.addMarker (supply.event events.length) (supply.subscription 0) m start
      (cx.stamp.events supply.event (events.map fun e =>
        ⟨supply.subscription 0, e.effective, e.payload⟩))).filter (·.isMove),
          e.effective.RoundsDown := by
    rw [filter_isMove_addMarker]
    have hdrafts : ∀ d ∈ events.map fun e =>
        (⟨supply.subscription 0, e.effective, e.payload⟩ : Draft), d.effective.RoundsDown :=
      List.forall_mem_map.2 fun e he => Instant.roundsDown_of_floorMillis (hdates e he)
    exact fun e he => Stamp.events_dated hdrafts e (List.mem_filter.1 he).1
  rw [hlaid.courseAt_eq (Store.shown_orderings ht _) hdate hdown, ← leads_filter_isMove,
    List.filter_comm, filter_isMove_addMarker, ← List.filter_comm, leads_filter_isMove,
    Stamp.map_payload_filter_events _ _ (·.floorMillis ≤ date), List.filter_map, List.map_map,
    ← hmillis]
  rfl

theorem planSubscription_shown
    (h : cx.planSubscription bundle key bundleStart supply m = .ok sub) (hm : m.InMillis)
    (ht : t.Tidy)
    (hlaid : Laid n (t.shown (sub.toSubscriptionRecord.filed 1)) (sub.events.map (·, 1))) :
    m.ShownBy cx.catalog cx.stamp.now (t.visible (sub.toSubscriptionRecord.filed 1)) := by
  have hopens := hlaid.opensOnce (Store.shown_ids ht _) (Store.shown_orderings ht _)
    (planSubscription_starts h) (planSubscription_starts_first h)
  have hspan := planSubscription_span h ht hlaid
  rw [hm.span?, Option.map_eq_some_iff] at hspan
  obtain ⟨start, hstart, hspan⟩ := hspan
  obtain ⟨rfl, hend⟩ := Span.mk.inj hspan
  have hcategory : sub.category = m.category := by
    obtain ⟨_, _, _, -, -, rfl⟩ := planSubscription_eq_ok h
    rfl
  refine ⟨hcategory, hstart, fun before c after hsplit date hle hnext hlive => ?_,
    fun f hf date hle => ?_⟩
  · obtain ⟨events, hevents, hcourse⟩ := planSubscription_course h hm ht hlaid
    obtain ⟨place, phase, hplace, hphase, hleads⟩ :=
      Catalog.alignCases_held hevents hsplit hle hnext
    refine ⟨place, phase, hplace, hphase, ?_⟩
    have hahead : ¬ (m.endDate?.any (· ≤ date)) = true := by
      rw [Option.any_eq_true]
      rintro ⟨f, hf, hover⟩
      exact absurd (of_decide_eq_true hover) (Int.not_le.2 (hlive f hf))
    rw [Store.targetAt?_visible ht, hopens.targetAt?, ← hleads, ← hcourse]
    exact if_neg (hend ▸ hahead)
  · obtain ⟨st, hst, -, -, hcancelled, -⟩ := hopens.standingAt sub.category date
    have hread : (t.visible (sub.toSubscriptionRecord.filed 1)).standingAt date = some st :=
      (Store.standingAt_visible ht _ _).trans hst
    rw [hread, Option.any_some, hcancelled]
    exact hend ▸ (Option.any_eq_true _ _).2 ⟨f, hf, decide_eq_true hle⟩

end ImportContext

/-- The subscriptions that an import describes are stored with their bundles as they were planned.
So what a plan shows when it is laid down holds of each of them, and there are no others. -/
theorem Engine.migrate_each {R : SubscriptionMigration → Subscription → Prop} {s t : Store}
    (hs : s.Reachable) {e : Engine} {context : CallContext} {now : Instant}
    {migration : AccountMigration} {bundles : List Bundle}
    (hR : ∀ b ∈ migration.bundles, ∀ m ∈ b.subscriptions, ∀ bundle key bundleStart supply sub,
      (∃ b n k, supply = (e.supply s).drop b n k) →
      ImportContext.planSubscription ⟨e.catalog, .ofContext context now⟩ bundle key bundleStart
        supply m = .ok sub → t.Tidy →
      Laid s.events.length (t.shown (sub.toSubscriptionRecord.filed 1)) (sub.events.map (·, 1)) →
      R m (t.visible (sub.toSubscriptionRecord.filed 1)))
    (h : e.migrate context now migration s = (.ok bundles, t)) :
    List.Forall₂ (fun (m : BundleMigration) b => ∃ subs, subs.Perm (t.subscriptionsOf b.id) ∧
      List.Forall₂ R m.subscriptions subs) migration.bundles bundles := by
  have hsound := hs.sound
  obtain ⟨images, planned, rfl, rows⟩ := Engine.migrate_eq_ok h
  have ht := rows.tidy hsound.tidy
  have hplanned := planMigration_eq_ok planned
  obtain ⟨⟨_, hscratch⟩, -⟩ := ImportContext.planBundles_scratch
      (Engine.supply_fresh _ _).bundles.injective (Engine.supply_fresh _ _).events.injective
      hplanned
  obtain ⟨hnodup, hfresh, -, hplans⟩ := ImportContext.planBundles_plans
      (Engine.supply_fresh _ _).bundles.injective (Engine.supply_fresh _ _).events.injective
      hplanned
  refine List.forall₂_map_right_iff.2 (forall₂_imp_of_mem hplans fun b hb image himage hplan => ?_)
  have hown : ∀ image ∈ images, ∀ sub ∈ image.subscriptions, sub.bundle = image.bundle.id := by
    intro image himage
    obtain ⟨m, -, hplan⟩ := exists_left_of_forall₂ hplans himage
    exact hplan.bundle_eq
  have hunused : ∀ c ∈ s.bundles, c.id ≠ image.bundle.id := by
    obtain ⟨n, hn⟩ := hfresh image himage
    rw [hn]
    exact fun c hc => (e.supply_fresh s).bundles.ne c hc n
  have hperm := rows.subscriptionsOf_scratch hsound.tidy hunused
  rw [filter_key_flatMap hnodup hown himage] at hperm
  have hshown : List.Forall₂ R (sortBy SubscriptionMigration.le b.subscriptions)
      (image.subscriptions.map fun sub => t.visible (sub.toSubscriptionRecord.filed 1)) := by
    refine List.forall₂_map_right_iff.2 (forall₂_imp_of_mem hplan fun m hm' sub hsub hsub' => ?_)
    obtain ⟨bundleStart, b', n, k, hsub'⟩ := hsub'
    exact hR b hb m (mem_sortBy.1 hm') _ _ _ _ sub ⟨b', n, k, rfl⟩ hsub' ht
      (rows.laid_scratch hsound.tidy hscratch.own sub (List.mem_flatMap.2 ⟨image, himage, hsub⟩))
  obtain ⟨subs, hsubs, horder⟩ :=
    List.perm_comp_forall₂ (sortBy_perm _ b.subscriptions).symm hshown
  exact ⟨subs, horder.trans hperm.symm, hsubs⟩

/-- The bundle holds a subscription for each one of the import, which shows its cases, and no
others. -/
def BundleMigration.ShownBy (m : BundleMigration) (catalog : Catalog) (now : Instant) (t : Store)
    (b : Bundle) : Prop :=
  ∃ subs, subs.Perm (t.subscriptionsOf b.id) ∧
    List.Forall₂ (fun (m : SubscriptionMigration) sub => m.ShownBy catalog now sub)
      m.subscriptions subs

/-- **An import shows its cases.** The subscriptions of each bundle that it describes are stored
with that bundle, each on the plan and phase of the case at every date up to its end, and cancelled
from then on. -/
theorem migrate_shows_cases {s t : Store} (hs : s.Reachable) {e : Engine} {context : CallContext}
    {now : Instant} {migration : AccountMigration} {bundles : List Bundle}
    (hm : ∀ b ∈ migration.bundles, ∀ m ∈ b.subscriptions, m.InMillis)
    (h : e.migrate context now migration s = (.ok bundles, t)) :
    List.Forall₂ (fun m b => m.ShownBy e.catalog now t b) migration.bundles bundles :=
  Engine.migrate_each hs (fun b hb m hm' _ _ _ _ _ _ hsub ht hlaid =>
    ImportContext.planSubscription_shown hsub (hm b hb m hm') ht hlaid) h

namespace Sample

/-- A base plan with a trial, which goes on to another price list when the trial is over. -/
def repriced : SubscriptionMigration :=
  ⟨.base, [⟨"pistol-monthly", .trial, "DEFAULT", day 10, some (day 40)⟩,
    ⟨"pistol-monthly", .evergreen, "LOYALTY", day 40, none⟩], none⟩

/-- A base plan that ended before it began. -/
def endedAhead : SubscriptionMigration :=
  ⟨.base, [⟨"pistol-monthly", .evergreen, "DEFAULT", day 20, some (day 10)⟩], none⟩

/-- The import of such a subscription on day 50, in a bundle of its own. -/
def imports (m : SubscriptionMigration) : Except Error (List Bundle) × Store :=
  engine.migrate caller (day 50) ⟨⟨1⟩, [⟨"key", [m]⟩]⟩ {}

/-- The price list of a case is not shown if the plan stays the same, and an end in front of the
first case cancels nothing. -/
theorem imported_shows_otherwise :
    (imports repriced).1.toOption.isSome = true ∧
      ((imports repriced).2.subscriptionsOf ⟨1⟩).map (·.targetAt? (day 45)) =
        [some ⟨"pistol-monthly", "pistol-monthly-evergreen", "DEFAULT"⟩] ∧
      (imports endedAhead).1.toOption.isSome = true ∧
      ((imports endedAhead).2.subscriptionsOf ⟨1⟩).map
        (fun sub => (sub.standingAt (day 45)).map (·.isCancelled)) = [some false] := by
  decide +kernel

end Sample

theorem migrate_shows_cases_sample :
    Sample.repriced.InMillis ∧ ∃ bundles t, Sample.imports Sample.repriced = (.ok bundles, t) ∧
      List.Forall₂ (fun m b => BundleMigration.ShownBy m Sample.engine.catalog (Sample.day 50) t b)
        [⟨"key", [Sample.repriced]⟩] bundles := by
  have hmillis : Sample.repriced.InMillis := by decide
  have hdone : (Sample.imports Sample.repriced).1.toOption.isSome = true := by decide +kernel
  cases hres : Sample.imports Sample.repriced with
  | mk res t =>
    rw [hres] at hdone
    cases res with
    | error err => cases hdone
    | ok bundles =>
      exact ⟨hmillis, bundles, t, rfl, migrate_shows_cases (.refl _)
        (by simpa using hmillis) hres⟩

end Tenure
