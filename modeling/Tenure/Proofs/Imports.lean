import Tenure.Proofs.Completion

/-!
# Imports that complete

An import lays out the past of a subscription case by case. The cases lead to the place of the last
one, and from there on to the phases that the plan has behind it. If the last case has an end, there
are no such phases but a cancellation, and the subscription is cancelled in the end.

A cancellation in front of the first case would cancel nothing. It takes a last case that ends
before the first one begins, which is left out here (`SubscriptionMigration.EndsInOrder`).
-/

namespace Tenure

variable {catalog : Catalog} {t : Store} {x : SubscriptionRecord} {n v : Nat}

/-! ## Cases -/

theorem MigrationCase.pairwise_sortBy (cases : List MigrationCase) :
    (sortBy dateLe cases).Pairwise (fun a b => a.effective ≤ b.effective) := by
  refine (Tenure.pairwise_sortBy (fun a b => ?_) (fun a b c hab hbc => ?_) cases).imp
    fun {a b} h => by simpa [dateLe] using h
  · simp only [dateLe, decide_eq_true_eq]
    exact Int.le_total _ _
  · simp only [dateLe, decide_eq_true_eq] at *
    exact Int.le_trans hab hbc

theorem MigrationCase.payload_type (previous : Option String) (plan : Plan) (target : Target) :
    (MigrationCase.payload previous plan target).type ≠ .cancel ∧
      (MigrationCase.payload previous plan target).type ≠ .uncancel ∧
      (MigrationCase.payload previous plan target).type ≠ .migrateBilling := by
  unfold MigrationCase.payload
  split
  · simp [Payload.type]
  · split <;> simp [Payload.type]

/-- If the last case has an end, it lies behind the first one's start. -/
def SubscriptionMigration.EndsInOrder (m : SubscriptionMigration) : Prop :=
  ∀ first last finish, m.firstDate? = some first →
    (sortBy MigrationCase.dateLe m.cases).getLast? = some last → last.finish = some finish →
      first ≤ finish

namespace Catalog

variable {now : Instant}

theorem placeOf_eq_ok {c : MigrationCase} {place : PlanPlace}
    (h : catalog.placeOf now c = .ok place) :
    catalog.findPlanByName c.plan now = .ok place.plan ∧
      place.plan.phases[place.index]? = some place.phase := by
  simp only [placeOf, bind_eq_ok] at h
  obtain ⟨plan, hplan, h⟩ := h
  split at h
  next index phase hindex hphase =>
    rw [pure_eq_ok] at h
    cases h
    rw [List.find?_eq_bind_findIdx?_getElem?] at hphase
    rw [Plan.indexOfType?] at hindex
    rw [hindex] at hphase
    exact ⟨hplan, hphase⟩
  · simp [throw_ne_ok] at h

theorem alignEach_dates {previous last : Option PlanPlace} {cs : List MigrationCase}
    {events : List TimedPayload} (h : catalog.alignEach now previous cs = .ok (events, last)) :
    events.map (·.effective) = cs.map (·.effective) := by
  induction cs generalizing previous events with
  | nil =>
    cases h
    rfl
  | cons c cs ih =>
    simp only [alignEach, bind_eq_ok, pure_eq_ok, Prod.mk.injEq] at h
    obtain ⟨place, -, ⟨rest, last'⟩, hrest, rfl, rfl⟩ := h
    rw [List.map_cons, List.map_cons, ih hrest]

/-- Cases taken by date take effect by date, and none behind the last of them. -/
theorem alignEach_ascending {previous place : Option PlanPlace} {cases : List MigrationCase}
    {events : List TimedPayload}
    (h : catalog.alignEach now previous (sortBy MigrationCase.dateLe cases) = .ok (events, place)) :
    events.Pairwise (fun a b => a.effective ≤ b.effective) ∧
      ∀ last, (sortBy MigrationCase.dateLe cases).getLast? = some last →
        ∀ e ∈ events, e.effective ≤ last.effective := by
  have hsorted := MigrationCase.pairwise_sortBy cases
  have hdates := alignEach_dates h
  have hascending : (events.map (·.effective)).Pairwise (· ≤ ·) := by
    rw [hdates]
    exact List.pairwise_map.2 hsorted
  refine ⟨List.pairwise_map.1 hascending, fun last hlast e he => ?_⟩
  obtain ⟨c, hc, hdate⟩ := List.mem_map.1 (hdates ▸ List.mem_map_of_mem he)
  exact hdate ▸ le_getLast? hsorted hlast c hc

/-- What periods keep holds of all that cases describe if it holds of their dates. -/
theorem alignCases_dated {P : Instant → Prop} (hP : Duration.Keeps P) {cases : List MigrationCase}
    {events : List TimedPayload} (hcases : ∀ c ∈ cases, P c.effective ∧ ∀ f ∈ c.finish, P f)
    (h : catalog.alignCases cases now = .ok events) : ∀ e ∈ events, P e.effective := by
  obtain ⟨last, aligned, place, ending, hlast, haligned, hending, rfl⟩ := alignCases_eq_ok h
  have hown := hcases last (mem_sortBy.1 (List.mem_of_getLast? hlast))
  refine List.forall_mem_append.2 ⟨fun e he => ?_, ?_⟩
  · obtain ⟨c, hc, hdate⟩ := List.mem_map.1 (alignEach_dates haligned ▸ List.mem_map_of_mem he)
    exact hdate ▸ (hcases c (mem_sortBy.1 hc)).1
  · unfold alignEnd at hending
    split at hending
    next finish hfinish =>
      cases hending
      exact List.forall_mem_singleton.2 (hown.2 finish hfinish)
    next place _ =>
      obtain ⟨chain, hchain, rfl⟩ := map_eq_ok.1 hending
      refine List.forall_mem_map.2 fun p hp => ?_
      exact layOut_keeps hP (phaseChain_eq_ok hchain) hown.1 p (List.mem_cons_of_mem _ hp)
    · cases hending
      simp

/-- Cases lead to the place of the last of them. -/
theorem alignEach_spec (hcat : catalog.IsSteady) {previous last : Option PlanPlace}
    {cs : List MigrationCase} {events : List TimedPayload}
    (h : catalog.alignEach now previous cs = .ok (events, last)) {t : Option Target}
    (ht : t.map (fun t => (t.plan, t.phase)) = previous.map fun p => (p.plan.name, p.phase.name)) :
    (leads t (events.map (·.payload))).map (fun t => (t.plan, t.phase)) =
        last.map (fun p => (p.plan.name, p.phase.name)) ∧
      (∀ e ∈ events, e.payload.type ≠ .uncancel) ∧
      (cs ≠ [] → ∃ place, last = some place ∧ catalog.Has place.plan ∧
        place.plan.phases[place.index]? = some place.phase) := by
  induction cs generalizing previous events t with
  | nil =>
    cases h
    exact ⟨ht, by simp, fun hne => (hne rfl).elim⟩
  | cons c cs ih =>
    simp only [alignEach, bind_eq_ok, pure_eq_ok, Prod.mk.injEq] at h
    obtain ⟨place, hplace, ⟨rest, last'⟩, hrest, rfl, rfl⟩ := h
    -- The case leads to its own place.
    have hlead : ((MigrationCase.payload (previous.map (·.plan.name)) place.plan
          ⟨place.plan.name, place.phase.name, c.priceList⟩).lead t).map
          (fun t => (t.plan, t.phase)) = (some place).map fun p => (p.plan.name, p.phase.name) := by
      cases previous with
      | none => rfl
      | some p =>
        obtain ⟨target, rfl, htarget⟩ := Option.map_eq_some_iff.1 ht
        unfold MigrationCase.payload
        simp only [Option.map_some]
        split
        next hsame => simp [Payload.lead, (Prod.mk.inj htarget).1, hsame]
        · rfl
    obtain ⟨hleads, htypes, hlast⟩ := ih hrest hlead
    refine ⟨hleads, fun e he => ?_, fun _ => ?_⟩
    · rcases List.mem_cons.1 he with rfl | he
      · exact (MigrationCase.payload_type _ _ _).2.1
      · exact htypes e he
    cases cs with
    | nil =>
      cases hrest
      obtain ⟨hplan, hphase⟩ := placeOf_eq_ok hplace
      exact ⟨place, rfl, (hcat.named _ _ _ hplan).2, hphase⟩
    | cons c' cs => exact hlast (by simp)

theorem alignEnd_eq_ok {last : MigrationCase} {place : PlanPlace} {ending : List TimedPayload}
    (h : alignEnd last (some place) = .ok ending) :
    (∃ finish, last.finish = some finish ∧ ending = [⟨finish, .cancel⟩]) ∨
      ∃ chain, phaseChain place.plan place.index last.effective = .ok chain ∧
        ending = chain.upcoming.map fun p => ⟨p.start, .phase p.phase.name⟩ := by
  unfold alignEnd at h
  cases hfinish : last.finish with
  | some finish =>
    simp only [hfinish] at h
    cases h
    exact .inl ⟨finish, rfl, rfl⟩
  | none =>
    simp only [hfinish] at h
    obtain ⟨chain, hchain, rfl⟩ := map_eq_ok.1 h
    exact .inr ⟨chain, hchain, rfl⟩

theorem chain_isFinal (hcat : catalog.IsSteady) {place : PlanPlace} {anchor : Instant}
    {chain : Schedule} (hhas : catalog.Has place.plan)
    (hphase : place.plan.phases[place.index]? = some place.phase)
    (hchain : phaseChain place.plan place.index anchor = .ok chain) {held target : Target}
    (hheld : (held.plan, held.phase) = (place.plan.name, place.phase.name))
    (htarget : leads (some held) (chain.upcoming.map fun p => .phase p.phase.name) = some target) :
    catalog.IsFinal target := by
  obtain ⟨hfollows, hcurrent, -⟩ := phaseChain_follows hchain (hcat.durations _ hhas)
  rw [hphase] at hcurrent
  obtain ⟨hplan, hname⟩ := Prod.mk.inj hheld
  rw [Option.some.inj hcurrent] at hname
  have hnames : (chain.upcoming.map fun p => Payload.phase p.phase.name) =
      (chain.upcoming.map (·.phase.name)).map .phase := by
    rw [List.map_map]
    rfl
  rw [hnames, leads_phases, hname, List.getLastD_map] at htarget
  cases htarget
  exact ⟨place.plan, hhas, hplan.symm, hfollows.ends⟩

/-- Cases without an end run through the phases of the last plan; others end in a cancellation. -/
theorem alignCases_completes (hcat : catalog.IsSteady) {cases : List MigrationCase}
    {events : List TimedPayload} (h : catalog.alignCases cases now = .ok events) :
    (∀ e ∈ events, e.payload.type ≠ .uncancel) ∧
      (events.Pairwise (fun a b => a.effective ≤ b.effective) ∧
          (∀ target, leads none (events.map (·.payload)) = some target → catalog.IsFinal target) ∨
        ∃ last finish, (sortBy MigrationCase.dateLe cases).getLast? = some last ∧
          last.finish = some finish ∧ ⟨finish, .cancel⟩ ∈ events) := by
  obtain ⟨last, aligned, place, ending, hlast, haligned, hending, rfl⟩ := alignCases_eq_ok h
  obtain ⟨hascending, hbefore⟩ := alignEach_ascending haligned
  obtain ⟨hleads, htypes, hplace⟩ := alignEach_spec hcat haligned (t := none) rfl
  obtain ⟨place, rfl, hhas, hphase⟩ := hplace fun hnil => by simp [hnil] at hlast
  rcases alignEnd_eq_ok hending with ⟨finish, hfinish, rfl⟩ | ⟨chain, hchain, rfl⟩
  · refine ⟨fun e he => ?_, .inr ⟨last, finish, hlast, hfinish, by simp⟩⟩
    rcases List.mem_append.1 he with he | he
    · exact htypes e he
    · rw [List.mem_singleton.1 he]
      nofun
  · obtain ⟨hfollows, -, hstart⟩ := phaseChain_follows hchain (hcat.durations _ hhas)
    have hahead := List.pairwise_cons.1 hfollows.ascending
    refine ⟨fun e he => ?_, .inl ⟨List.pairwise_append.2
      ⟨hascending, List.pairwise_map.2 (hahead.2.imp Int.le_of_lt), fun a ha b hb => ?_⟩,
      fun target htarget => ?_⟩⟩
    · rcases List.mem_append.1 he with he | he
      · exact htypes e he
      · obtain ⟨p, -, rfl⟩ := List.mem_map.1 he
        nofun
    · obtain ⟨p, hp, rfl⟩ := List.mem_map.1 hb
      have hlater := hahead.1 p hp
      rw [hstart] at hlater
      exact Int.le_of_lt (Int.lt_of_le_of_lt (hbefore last hlast a ha) hlater)
    · obtain ⟨held, hheld, hplan⟩ := Option.map_eq_some_iff.1 hleads
      rw [List.map_append, leads_append, hheld, List.map_map] at htarget
      exact chain_isFinal hcat hhas hphase hchain hplan htarget

end Catalog

namespace ImportContext

variable {cx : ImportContext} {id : EventId} {i : SubscriptionId} {m : SubscriptionMigration}
  {start : Instant} {events : List Event}

theorem sublist_addMarker : events.Sublist (cx.addMarker id i m start events) := by
  rcases cx.addMarker_cases id i m start events with
    hnone | ⟨date, target, front, back, hsplit, hmarker⟩
  · rw [hnone]
  · rw [hsplit] at hmarker ⊢
    rw [hmarker]
    exact (List.Sublist.refl front).append (List.sublist_cons_self _ back)

theorem type_of_mem_addMarker {e : Event} (he : e ∈ cx.addMarker id i m start events) :
    e ∈ events ∨ e.type = .migrateBilling := by
  rcases cx.addMarker_cases id i m start events with
    hnone | ⟨date, target, front, back, hsplit, hmarker⟩
  · exact .inl (hnone ▸ he)
  · rw [hmarker, List.mem_append, List.mem_cons] at he
    rw [hsplit, List.mem_append]
    rcases he with he | rfl | he
    · exact .inl (.inl he)
    · exact .inr rfl
    · exact .inl (.inr he)

theorem filter_isMove_addMarker :
    (cx.addMarker id i m start events).filter (·.isMove) = events.filter (·.isMove) := by
  rcases cx.addMarker_cases id i m start events with
    hnone | ⟨date, target, front, back, hsplit, hmarker⟩
  · rw [hnone]
  · rw [hmarker, hsplit, List.filter_append, List.filter_append, List.filter_cons_of_neg (by nofun)]

theorem addMarker_starts_first
    (h : events.Pairwise (fun a b => a.type = .cancel → b.type.startsSubscription = false)) :
    (cx.addMarker id i m start events).Pairwise
      (fun a b => a.type = .cancel → b.type.startsSubscription = false) := by
  rcases cx.addMarker_cases id i m start events with
    hnone | ⟨date, target, front, back, hsplit, hmarker⟩
  · rwa [hnone]
  · rw [hsplit, List.pairwise_append] at h
    obtain ⟨hfront, hback, hcross⟩ := h
    rw [hmarker, List.pairwise_append, List.pairwise_cons]
    refine ⟨hfront, ⟨fun _ _ => nofun, hback⟩, fun a ha b hb htype => ?_⟩
    rcases List.mem_cons.1 hb with rfl | hb
    · rfl
    · exact hcross a ha b hb htype

/-- If none but the first event starts the subscription, no start stands behind a cancellation. -/
theorem starts_first_of_cases (stamp : Stamp) (ids : Nat → EventId) (i : SubscriptionId)
    {first : TimedPayload} {rest : List TimedPayload}
    (hrest : ∀ e ∈ rest, e.payload.type.startsSubscription = false) :
    (stamp.events ids ((first :: rest).map fun e => ⟨i, e.effective, e.payload⟩)).Pairwise
      (fun a b => a.type = .cancel → b.type.startsSubscription = false) := by
  have hstarts : ∀ b ∈ stamp.events (fun n => ids (n + 1))
      (rest.map fun e => ⟨i, e.effective, e.payload⟩), b.type.startsSubscription = false := by
    intro b hb
    obtain ⟨d, hd, k, -, rfl⟩ := Stamp.mem_events hb
    obtain ⟨e, he, rfl⟩ := List.mem_map.1 hd
    exact hrest e he
  refine List.pairwise_cons.2 ⟨fun b hb _ => hstarts b hb, ?_⟩
  exact List.pairwise_of_forall_mem_list fun _ _ b hb _ => hstarts b hb

/-- The start of an imported subscription stands in front of its cancellation. -/
theorem planSubscription_starts_first {bundle : BundleId} {key : String}
    {bundleStart : Option Instant} {supply : Supply} {sub : Subscription}
    (h : cx.planSubscription bundle key bundleStart supply m = .ok sub) :
    sub.events.Pairwise (fun a b => a.type = .cancel → b.type.startsSubscription = false) := by
  obtain ⟨cases, _, _, hcases, -, rfl⟩ := planSubscription_eq_ok h
  obtain ⟨first, rest, rfl, -, -, hrest⟩ := Catalog.alignCases_starts hcases
  exact addMarker_starts_first (starts_first_of_cases _ _ _ hrest)

/-- An imported subscription runs to the end of its plan or is cancelled. -/
theorem planSubscription_completes {bundle : BundleId} {key : String} {bundleStart : Option Instant}
    {supply : Supply} {sub : Subscription} (hcat : cx.catalog.IsSteady)
    (h : cx.planSubscription bundle key bundleStart supply m = .ok sub) (hend : m.EndsInOrder)
    (hdown : ∀ c ∈ m.cases, c.effective.RoundsDown ∧ ∀ f ∈ c.finish, f.RoundsDown)
    (ht : t.Tidy) (hlaid : Laid n (t.shown x) (sub.events.map (·, v))) :
    cx.catalog.Completes (t.shown x) := by
  have hstarts := planSubscription_starts h
  have hordered := pairwise_of_forall₂ hlaid.forall₂ (planSubscription_starts_first h)
    (Store.shown_orderings ht x) (U := fun a b =>
      a.ordering < b.ordering ∧ (a.type = .cancel → b.type.startsSubscription = false)) (by
        rintro _ _ a b ⟨k, -, rfl⟩ ⟨k', -, rfl⟩ - - hkind hlt
        exact ⟨hlt, hkind⟩)
  obtain ⟨cases, start, bundleStart', hcases, hstart, rfl⟩ := planSubscription_eq_ok h
  have hdates := Catalog.alignCases_dated Duration.keeps_roundsDown hdown hcases
  obtain ⟨htypes, ⟨hdate, hfinal⟩ | ⟨last, finish, hlast, hfinish, hmem⟩⟩ :=
    Catalog.alignCases_completes hcat hcases
  · refine Store.completes_of_laid ht hlaid ?_ ?_ fun target htarget => hfinal target ?_
    · rw [filter_isMove_addMarker]
      exact (Stamp.pairwise_events _ _ (List.pairwise_map.2 hdate)).sublist List.filter_sublist
    · rw [filter_isMove_addMarker]
      exact fun e he => Stamp.events_dated (List.forall_mem_map.2 hdates) e (List.mem_filter.1 he).1
    · rw [← leads_filter_isMove, filter_isMove_addMarker, leads_filter_isMove,
        Stamp.map_payload_events, List.map_map] at htarget
      exact htarget
  · left
    obtain ⟨k, hcancel⟩ := cx.stamp.exists_event supply.event
      (List.mem_map_of_mem (f := fun e => ⟨supply.subscription 0, e.effective, e.payload⟩) hmem)
    obtain ⟨c, hc, j, -, rfl⟩ :=
      exists_left_of_forall₂ hlaid.forall₂ (sublist_addMarker.subset hcancel)
    refine reached_last_cancelled (Store.shown_ids ht x) (Store.shown_orderings ht x)
      (fun f hf => ?_) hc rfl (by simp [hlaid.starts, hstarts]) fun f hf hstarted => ?_
    · obtain ⟨e, he, htype⟩ := hlaid.mem_type hf
      rw [htype]
      rcases type_of_mem_addMarker he with he | hmarker
      · obtain ⟨d, hd, _, -, rfl⟩ := Stamp.mem_events he
        obtain ⟨p, hp, rfl⟩ := List.mem_map.1 hd
        exact htypes p hp
      · rw [hmarker]
        nofun
    · -- The start stands in front of the cancellation and does not lie behind it.
      obtain ⟨first, rest, rfl, hhead, -, -⟩ := Catalog.alignCases_starts hcases
      cases hstart
      refine Event.before_of_ordered hordered hf hc hstarted rfl ?_
      have hdate : f.effective ∈ starts (t.shown x) := mem_starts.2 ⟨f, hf, hstarted, rfl⟩
      rw [hlaid.starts, hstarts] at hdate
      rw [List.mem_singleton.1 hdate]
      exact Instant.floorMillis_mono (hdates first List.mem_cons_self)
        (hend _ last finish hhead hlast hfinish)

end ImportContext

end Tenure
