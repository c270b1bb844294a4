import Tenure.Proofs.Course
import Tenure.Proofs.DryRun
import Tenure.Proofs.Openings

/-!
# Writes that complete

A subscription is created with the phases of its plan up to the last, and a change brings along
those of the new plan. So either puts the subscription on course for a phase without successor,
and what else is written keeps it there: a cancellation or an uncancellation is no move, and the
copy that a transfer makes is on the course of the original.

What a transfer leaves out of the copy is the cancellation. An import that ends, or a cancellation
that a repair proposes, can stand in the place of the phases to come, and without it the
subscription is on course for nothing. That is what the assumptions below are about.
-/

namespace Tenure

/-! ## What is laid down -/

theorem Laid.map_payload {n v : Nat} {fs es : List Event} (h : Laid n fs (es.map (·, v))) :
    fs.map (·.payload) = es.map (·.payload) := by
  have hall := h.forall₂
  clear h
  induction hall with
  | nil => rfl
  | cons hfe _ ih =>
    obtain ⟨k, -, rfl⟩ := hfe
    rw [List.map_cons, List.map_cons, ih, Event.filed_payload]

theorem Laid.mem_type {n v : Nat} {fs es : List Event} (h : Laid n fs (es.map (·, v))) {f : Event}
    (hf : f ∈ fs) : ∃ e ∈ es, f.type = e.type := by
  obtain ⟨e, he, k, -, rfl⟩ := exists_right_of_forall₂ h.forall₂ hf
  exact ⟨e, he, rfl⟩

theorem Laid.moves {n v : Nat} {fs es : List Event} (h : Laid n fs (es.map (·, v))) :
    Laid n (fs.filter (·.isMove)) ((es.filter (·.isMove)).map (·, v)) := by
  have hall := h.forall₂
  clear h
  induction hall with
  | nil => exact .nil
  | @cons f e fs es hfe _ ih =>
    obtain ⟨k, hk, rfl⟩ := hfe
    have hsame : (e.filed v k).isMove = e.isMove := rfl
    rw [List.filter_cons, List.filter_cons, hsame]
    split
    · exact .cons ⟨k, hk, rfl⟩ ih
    · exact ih

theorem Laid.ascending {n v : Nat} {fs es : List Event} (h : Laid n fs (es.map (·, v)))
    (hdate : es.Pairwise (fun a b => a.effective ≤ b.effective))
    (hdown : ∀ e ∈ es, e.effective.RoundsDown) :
    fs.Pairwise (fun a b => a.effective ≤ b.effective) := by
  have hall := h.forall₂
  refine pairwise_of_forall₂ (T := fun _ _ => True) hall hdate
    (List.pairwise_of_forall fun _ _ => trivial) ?_
  rintro _ _ e e' ⟨k, -, rfl⟩ ⟨k', -, rfl⟩ he - hle -
  exact Instant.floorMillis_mono (hdown e he) hle

theorem Laid.settled_moves {n v : Nat} {fs es : List Event} (h : Laid n fs (es.map (·, v)))
    (hord : fs.Pairwise (fun a b => a.ordering < b.ordering))
    (hdate : (es.filter (·.isMove)).Pairwise (fun a b => a.effective ≤ b.effective))
    (hdown : ∀ e ∈ es.filter (·.isMove), e.effective.RoundsDown) :
    Settled (fs.filter (·.isMove)) := by
  refine .of_ascending (hord.sublist List.filter_sublist) (h.moves.ascending hdate hdown)
    fun f hf htype => ?_
  have hmove := (List.mem_filter.1 hf).2
  simp [Event.isMove, htype, EventType.startsSubscription] at hmove

theorem Laid.course_eq {n v : Nat} {fs es : List Event} (h : Laid n fs (es.map (·, v)))
    (hids : (fs.map (·.id)).Nodup) (hord : fs.Pairwise (fun a b => a.ordering < b.ordering))
    (hdate : (es.filter (·.isMove)).Pairwise (fun a b => a.effective ≤ b.effective))
    (hdown : ∀ e ∈ es.filter (·.isMove), e.effective.RoundsDown) :
    course fs = leads none (es.map (·.payload)) := by
  rw [course_of_settled hids (h.settled_moves hord hdate hdown), h.map_payload]

namespace Stamp

variable (stamp : Stamp) (ids : Nat → EventId) {ds : List Draft}

theorem pairwise_events (h : ds.Pairwise (fun a b => a.effective ≤ b.effective)) :
    (stamp.events ids ds).Pairwise (fun a b => a.effective ≤ b.effective) := by
  have hdates : ((stamp.events ids ds).map (·.effective)).Pairwise (· ≤ ·) := by
    rw [map_effective_events]
    exact List.pairwise_map.2 h
  exact List.pairwise_map.1 hdates

end Stamp

/-! ## Schedules drawn up -/

theorem Schedule.Follows.isFinal {catalog : Catalog} {plan : Plan} {s : Schedule}
    (h : s.Follows plan) (hhas : catalog.Has plan) (priceList : String) :
    catalog.IsFinal ⟨plan.name, s.last.phase.name, priceList⟩ :=
  ⟨plan, hhas, rfl, h.ends⟩

namespace Engine

variable {i : SubscriptionId} {schedule : Schedule}

@[simp] theorem map_payload_phaseDrafts : (phaseDrafts i schedule).map (·.payload) =
    (schedule.upcoming.map (·.phase.name)).map .phase := by
  simp [phaseDrafts]

theorem leads_phaseDrafts (plan priceList : String) :
    leads (some ⟨plan, schedule.current.phase.name, priceList⟩)
        ((schedule.upcoming.map (·.phase.name)).map .phase) =
      some ⟨plan, schedule.last.phase.name, priceList⟩ := by
  rw [leads_phases, List.getLastD_map]
  rfl

theorem pairwise_drafts {plan : Plan} {effective : Instant} (h : schedule.SeenAt plan effective)
    (payload : Payload) :
    (⟨i, effective, payload⟩ :: phaseDrafts i schedule : List Draft).Pairwise
      (fun a b => a.effective ≤ b.effective) := by
  refine List.pairwise_cons.2 ⟨fun d hd => ?_, ?_⟩
  · obtain ⟨p, hp, rfl⟩ := List.mem_map.1 hd
    exact Int.le_of_lt (h.ahead p hp)
  · exact List.pairwise_map.2 (List.pairwise_cons.1 h.sorted).2

end Engine

/-! ## Creations -/

section Operations

variable {catalog : Catalog} {s t : Store} {x : SubscriptionRecord} {n v : Nat}

/-- What is laid down on course for a phase without successor completes. -/
theorem Store.completes_of_laid (ht : t.Tidy) {es : List Event}
    (h : Laid n (t.shown x) (es.map (·, v)))
    (hdate : (es.filter (·.isMove)).Pairwise (fun a b => a.effective ≤ b.effective))
    (hdown : ∀ e ∈ es.filter (·.isMove), e.effective.RoundsDown)
    (hfinal : ∀ target, leads none (es.map (·.payload)) = some target → catalog.IsFinal target) :
    catalog.Completes (t.shown x) := by
  right
  rw [h.course_eq (shown_ids ht x) (shown_orderings ht x) hdate hdown]
  exact hfinal

theorem Engine.newSubscription_completes {e : Engine} {context : CallContext} {now : Instant}
    {bundle : BundleId} {spec : PlanSpec} {sub : Subscription} (hcat : e.catalog.IsSteady)
    (hs : s.Tidy) (hdate : (context.requested.getD now).RoundsDown)
    (h : e.newSubscription context now bundle spec s = .ok sub) (ht : t.Tidy)
    (hlaid : Laid n (t.shown x) (sub.events.map (·, v))) : e.catalog.Completes (t.shown x) := by
  have hdown := newSubscription_dated Duration.keeps_roundsDown (hs.loaded_dated bundle) hdate h
  obtain ⟨plan, bundleStart, schedule, hplan, -, halign, rfl⟩ := newSubscription_eq_ok h
  have hhas := hcat.found _ _ _ hplan
  have hseen := Catalog.alignOnCreate_seenAt halign
  refine Store.completes_of_laid ht hlaid ?_ (fun f hf => hdown f (List.mem_filter.1 hf).1)
    fun target htarget => ?_
  · exact (Stamp.pairwise_events _ _ (pairwise_drafts hseen _)).sublist List.filter_sublist
  · rw [Stamp.map_payload_events, List.map_cons, leads_cons, map_payload_phaseDrafts] at htarget
    cases (leads_phaseDrafts plan.name spec.priceList).symm.trans htarget
    exact (hseen.follows (hcat.durations plan hhas)).isFinal hhas spec.priceList

/-! ## Changes -/

namespace Engine

variable {e : Engine} {context : CallContext} {now : Instant} {i : SubscriptionId}

theorem liveTarget_eq_ok {sub : Subscription} {date : Instant} {current : Target}
    (h : liveTarget sub date = .ok current) :
    ∃ st, sub.standingAt date = some st ∧ st.start ≤ date ∧ st.isCancelled = false ∧
      st.isFutureCancelled = false ∧ st.target? = some current := by
  unfold liveTarget at h
  split at h
  · cases h
  next st hst =>
    obtain ⟨hst, hstart⟩ := Option.filter_eq_some_iff.1 hst
    split at h
    · cases h
    next hlive =>
      obtain ⟨hnot, hlater⟩ := by simpa using hlive
      split at h
      next htarget =>
        cases h
        exact ⟨st, hst, by simpa using hstart, hnot, hlater, htarget⟩
      · cases h

theorem le_policyDate (policy : ActionPolicy) (sub : Subscription) (requested : Instant) :
    requested ≤ policyDate policy sub requested := by
  unfold policyDate
  split
  · split
    next hlt => exact Int.le_of_lt hlt
    · exact Int.le_refl _
  · exact Int.le_refl _

end Engine

namespace Store

/-- A subscription that is rooted, if at all, has the start of its state for its only one. -/
theorem starts_of_standing (hs : s.Tidy) (hroot : s.IsRooted x ∨ s.IsRootless x) {date : Instant}
    {st : Standing} (h : (s.visible x).standingAt date = some st) :
    starts (s.shown x) = [st.start] := by
  have hrooted := isRooted_of_standing hs hroot h
  have hmem := start_mem_starts (visible_ids hs x) h
  rw [hrooted.starts_visible, List.mem_singleton] at hmem
  rw [hrooted, hmem]

theorem floorMillis_of_mem_starts (hs : s.Tidy) {date : Instant} (h : date ∈ starts (s.shown x)) :
    date.floorMillis = date := by
  obtain ⟨e, he, -, rfl⟩ := mem_starts.1 h
  exact hs.eventDates e (mem_shown.1 he).1

theorem starts_le_policyDate (hs : s.Tidy) (hroot : s.IsRooted x ∨ s.IsRootless x)
    {requested : Instant} {st : Standing} (h : (s.visible x).standingAt requested = some st)
    (hstart : st.start ≤ requested) (policy : ActionPolicy) (sub : Subscription) :
    ∀ date ∈ starts (s.shown x), date ≤ (Engine.policyDate policy sub requested).floorMillis := by
  intro date hdate
  have hwhole := floorMillis_of_mem_starts hs hdate
  rw [starts_of_standing hs hroot h, List.mem_singleton] at hdate
  rw [← hwhole]
  exact Instant.floorMillis_mono (Instant.roundsDown_of_floorMillis hwhole)
    (Int.le_trans (hdate ▸ hstart) (Engine.le_policyDate policy sub requested))

end Store

theorem Engine.changeEvents_completes {e : Engine} {context : CallContext} {now : Instant}
    {i : SubscriptionId} {spec : PlanSpec} {events : List Event} (hcat : e.catalog.IsSteady)
    (hs : s.Tidy) (hroot : s.IsRooted x ∨ s.IsRootless x) (hx : x ∈ s.records)
    (hdate : (context.requested.getD now).RoundsDown)
    (h : e.changeEvents context now i spec s = .ok events) (ht : t.Tidy) {fs : List Event}
    (hshown : t.shown x = s.shown x ++ fs)
    (hlaid : Laid n fs ((events.filter (·.subscription == x.id)).map (·, v)))
    (hbefore : e.catalog.Completes (s.shown x)) : e.catalog.Completes (t.shown x) := by
  have howner := changeEvents_own h
  have hdown := changeEvents_dated Duration.keeps_roundsDown (fun _ => hs.subscription?_dated)
    hdate h
  obtain ⟨sub, current, plan, terms, schedule, hsub, hlive, hplan, -, halign, rfl⟩ :=
    changeEvents_eq_ok h
  by_cases hid : x.id = i
  · rw [List.filter_eq_self.2 fun f hf => by simp [howner f hf, hid]] at hlaid
    have hhas := hcat.found _ _ _ hplan
    have hseen := Catalog.alignOnChange_seenAt halign
    have hdates := hlaid.ascending (Stamp.pairwise_events _ _ (pairwise_drafts hseen _)) hdown
    obtain ⟨c, ps, ⟨k, -, rfl⟩, hps, rfl⟩ := List.forall₂_cons_right_iff.1 hlaid
    -- The change lies behind the start.
    obtain ⟨q, hq, hqi, hvisible⟩ := (Store.subscription?_eq_some hs).1 hsub
    obtain rfl := hs.record_unique hq hx (hqi.trans hid.symm)
    obtain ⟨st, hst, hstart, -⟩ := liveTarget_eq_ok hlive
    have hstanding : (s.visible q).standingAt (context.requested.getD now) = some st :=
      hvisible ▸ hst
    have hstarts := Store.starts_of_standing hs hroot hstanding
    have hle := Store.starts_le_policyDate hs hroot hstanding hstart terms.policy sub
    have hphases := Laid.map_payload hps
    rw [Stamp.map_payload_events, map_payload_phaseDrafts] at hphases
    have hids := Store.shown_ids ht q
    have hord := Store.shown_orderings ht q
    rw [hshown] at hids hord ⊢
    right
    intro target htarget
    rw [course_append_change hids hord hdates (by simp [hstarts]) hle rfl hphases,
      List.getLastD_map] at htarget
    cases htarget
    exact (hseen.follows (hcat.durations plan hhas)).isFinal hhas terms.newPriceList
  · rw [List.filter_eq_nil_iff.2 fun f hf => by simpa [howner f hf] using Ne.symm hid] at hlaid
    cases hlaid
    rwa [hshown, List.append_nil]

/-! ## Cancellations -/

namespace Store

variable {es fs : List Event}

theorem completes_of_cancels (ht : t.Tidy) (hshown : t.shown x = s.shown x ++ fs)
    (hlaid : Laid n fs (es.map (·, v))) (hes : ∀ e ∈ es, e.type = .cancel)
    (hbefore : catalog.Completes (s.shown x)) : catalog.Completes (t.shown x) := by
  have hids := shown_ids ht x
  rw [hshown] at hids ⊢
  apply hbefore.append_cancels hids
  intro f hf
  obtain ⟨e, he, htype⟩ := hlaid.mem_type hf
  rw [htype, hes e he]

/-- A subscription that is on course completes, whatever becomes of its cancellations. -/
theorem completes_of_uncancels (hs : s.Tidy) (ht : t.Tidy) (hshown : t.shown x = s.shown x ++ fs)
    (hlaid : Laid n fs (es.map (·, v))) (hes : ∀ e ∈ es, e.type = .uncancel)
    (hcourse : (s.visible x).IsOnCourse catalog) : catalog.Completes (t.shown x) := by
  have hids := shown_ids ht x
  right
  rw [hshown] at hids ⊢
  rw [course_append_of_not_moves hids fun f hf => ?_]
  · intro target htarget
    refine hcourse target ?_
    rwa [Subscription.course_eq (visible_ids hs x), course_congr (effectiveEvents_visible hs x)]
  · obtain ⟨e, he, htype⟩ := hlaid.mem_type hf
    simp [Event.isMove, htype, hes e he, EventType.startsSubscription]

end Store

/-! ## Transfers -/

namespace Subscription

variable {sub moved : Subscription} {start : Instant} {target : Target}

theorem heldAt?_eq_some (h : sub.heldAt? start = some target) :
    ∃ st, sub.standingAt start = some st ∧ st.start ≤ start ∧
      (reached sub.events start).cancelled = false ∧
      (reached sub.events start).target = some target := by
  obtain ⟨st, hst, htarget⟩ := Option.bind_eq_some_iff.1 h
  obtain ⟨hst, hheld⟩ := Option.filter_eq_some_iff.1 hst
  simp only [Bool.and_eq_true, decide_eq_true_eq, Bool.not_eq_true'] at hheld
  obtain ⟨hstarted, hlive⟩ := hheld
  obtain ⟨-, hcancelled, hreached⟩ := standingAt_spec hst hstarted
  rw [hcancelled] at hlive
  exact ⟨st, hst, hstarted, hlive, (hreached hlive).symm.trans htarget⟩

/-- What lies ahead leads from the position held to the end of the course. -/
theorem leads_ahead (hids : (sub.events.map (·.id)).Nodup) {date : Instant}
    (hstarts : ∀ d ∈ starts sub.events, d = date) (hheld : sub.heldAt? start = some target) :
    leads (some target) ((sub.ahead start).map (·.payload)) = sub.course := by
  obtain ⟨st, hst, hstarted, hlive, htarget⟩ := heldAt?_eq_some hheld
  have hsofar := (target_through (c := .start) (fun _ => rfl) hlive).symm.trans htarget
  -- The only start is behind, so the moves ahead are changes and phases.
  have hahead : (sub.effectiveEvents.filter (start < ·.effective)).filter (·.isMove) =
      sub.ahead start := by
    rw [ahead, List.filter_filter]
    apply List.filter_congr
    intro e he
    by_cases hlater : start < e.effective
    · have hno : e.type.startsSubscription = false := Bool.eq_false_iff.2 fun hstart => by
        have hdate := hstarts _ (mem_starts.2 ⟨e, (mem_effectiveEvents.1 he).1, hstart, rfl⟩)
        have hdate' := hstarts _ (start_mem_starts hids hst)
        rw [hdate, ← hdate'] at hlater
        exact absurd hlater (Int.not_lt.2 hstarted)
      simp [Event.isMove, hno, hlater]
    · simp [hlater]
  rw [course_eq hids, Tenure.course,
    ← filter_append_filter_of_date (pairwise_date_effectiveEvents sub.events) start,
    List.map_append, leads_append, ← hsofar, ← hahead, leads_filter_isMove]
  rfl

end Subscription

theorem Subscription.transferred?_ascending {sub moved : Subscription} {stamp : Stamp}
    {bundle : BundleId} {date : Instant} {supply : Supply}
    (h : sub.transferred? stamp bundle date supply = some moved) :
    moved.events.Pairwise (fun a b => a.effective ≤ b.effective) := by
  obtain ⟨start, target, hopening, rfl⟩ := transferred?_eq_some h
  refine Stamp.pairwise_events _ _ (List.pairwise_cons.2 ⟨fun d hd => ?_, ?_⟩)
  · obtain ⟨e, he, rfl⟩ := List.mem_map.1 hd
    have hlater := (List.mem_filter.1 he).2
    simp only [Bool.and_eq_true, decide_eq_true_eq] at hlater
    exact Int.le_of_lt hlater.1
  · exact List.pairwise_map.2
      ((pairwise_date_effectiveEvents sub.events).sublist List.filter_sublist)

/-- The copy of a subscription that is on course, opened where it is held, completes. -/
theorem Subscription.transferred?_completes {sub moved : Subscription} {stamp : Stamp}
    {bundle : BundleId} {date : Instant} {supply : Supply}
    (h : sub.transferred? stamp bundle date supply = some moved)
    (hids : (sub.events.map (·.id)).Nodup) {d : Instant}
    (hstarts : ∀ d' ∈ starts sub.events, d' = d)
    (hopen : ∀ start target, sub.opening? date = some (start, target) →
      sub.heldAt? start = some target ∧ sub.IsOnCourse catalog)
    (hdown : ∀ e ∈ moved.events, e.effective.RoundsDown) (ht : t.Tidy)
    (hlaid : Laid n (t.shown x) (moved.events.map (·, v))) :
    catalog.Completes (t.shown x) := by
  have hdate := (transferred?_ascending h).sublist (List.filter_sublist (p := Event.isMove))
  obtain ⟨start, target, hopening, rfl⟩ := transferred?_eq_some h
  obtain ⟨hheld, hcourse⟩ := hopen start target hopening
  refine Store.completes_of_laid ht hlaid hdate (fun e he => hdown e (List.mem_filter.1 he).1)
    fun final hfinal => hcourse final ?_
  rw [Stamp.map_payload_events, List.map_cons, leads_cons, List.map_map] at hfinal
  exact (leads_ahead hids hstarts hheld).symm.trans hfinal

end Operations

end Tenure
