import Tenure.Proofs.DryRun
import Tenure.Proofs.Spans

/-!
# Repairs that complete

A creation or a change that a repair carries out puts all phases of its plan in prospect, and each
phase that is entered is the first of those. So once a proposal was carried out, a subscription is
cancelled or the phases still in prospect lead to one without successor, and this is how it stays
(`Finishing`). A subscription that is only cut back has no proposal to be carried out. For it the
repair finds back the schedule that the last transition kept put in motion, and takes the phases of
it that lie behind the last event kept.

There are none of these if something is kept that reaches past the last phase, though the phase
itself is gone or never was there. Such a subscription overstays the phase it is left on
(`Rework.Overstays`).
-/

namespace Tenure

/-! ## Prospects -/

namespace Prospect

/-- The prospects of one subscription are in order if they are by date. -/
theorem sortBy_le_of_own {i : SubscriptionId} {ps : List Prospect}
    (hown : ∀ p ∈ ps, p.subscription = i) (hdate : ps.Pairwise (fun a b => a.date ≤ b.date)) :
    sortBy le ps = ps := by
  refine sortBy_of_pairwise (hdate.imp_of_mem fun {a b} ha hb hle => ?_)
  rw [Instant.le_def] at hle
  simp only [le, hown a ha, hown b hb, Bool.or_eq_true, Bool.and_eq_true, decide_eq_true_eq,
    beq_iff_eq, Instant.lt_def, Instant.ext_iff]
  omega

theorem ofSchedule_own {i : SubscriptionId} {s : Schedule} {date : Instant} {p : Prospect}
    (hp : p ∈ ofSchedule i s date) : p.subscription = i := by
  obtain ⟨phase, -, rfl⟩ := List.mem_map.1 hp
  rfl

theorem pairwise_ofSchedule {i : SubscriptionId} {plan : Plan} {s : Schedule} {seen : Instant}
    (h : s.SeenAt plan seen) (date : Instant) :
    (ofSchedule i s date).Pairwise (fun a b => a.date ≤ b.date) :=
  List.pairwise_map.2 ((List.pairwise_cons.1 h.sorted).2.sublist List.filter_sublist)

/-- If the last phase of a schedule lies ahead, the prospects lead there. -/
theorem ofSchedule_last {i : SubscriptionId} {s : Schedule} {date : Instant}
    (h : ∀ last, s.upcoming.getLast? = some last → date < last.start) :
    ((ofSchedule i s date).map (·.phase)).getLastD s.current.phase.name = s.last.phase.name := by
  unfold ofSchedule Schedule.last
  rcases List.eq_nil_or_concat' s.upcoming with hnil | ⟨front, last, hfront⟩
  · rw [hnil]
    rfl
  · rw [hfront] at h ⊢
    have hlast := h last List.getLast?_concat
    simp [hlast, List.filter_append]

end Prospect

namespace Replay

/-- The phases in prospect for a subscription. -/
def due (r : Replay) (i : SubscriptionId) : List Prospect :=
  r.prospects.filter (·.subscription == i)

/-- Their names. -/
def ahead (r : Replay) (i : SubscriptionId) : List String := (r.due i).map (·.phase)

variable {r : Replay} {i j : SubscriptionId} {p : Prospect} {ps : List Prospect}

theorem due_of_front (hfront : r.prospects = p :: ps) :
    r.due i = if p.subscription = i then p :: ({ r with prospects := ps } : Replay).due i
      else ({ r with prospects := ps } : Replay).due i := by
  by_cases hid : p.subscription = i <;> simp [due, hfront, hid]

theorem due_replaceProspects_self (hown : ∀ p ∈ ps, p.subscription = i)
    (hdate : ps.Pairwise (fun a b => a.date ≤ b.date)) : (r.replaceProspects i ps).due i = ps := by
  have hnone : (r.prospects.filter (·.subscription != i)).filter (·.subscription == i) = [] :=
    List.filter_eq_nil_iff.2 fun p hp => by simpa using (List.mem_filter.1 hp).2
  have hall : ps.filter (·.subscription == i) = ps :=
    List.filter_eq_self.2 fun p hp => by simp [hown p hp]
  rw [due, replaceProspects, filter_sortBy Prospect.le_total Prospect.le_trans,
    List.filter_append, hnone, hall, List.nil_append, Prospect.sortBy_le_of_own hown hdate]

theorem due_replaceProspects_other (hne : j ≠ i) (hown : ∀ p ∈ ps, p.subscription = i)
    (hdate : r.prospects.Pairwise (fun a b => a.date ≤ b.date)) :
    (r.replaceProspects i ps).due j = r.due j := by
  have hkeep : (r.prospects.filter (·.subscription != i)).filter (·.subscription == j) =
      r.prospects.filter (·.subscription == j) := by
    rw [List.filter_filter]
    apply List.filter_congr
    intro p _
    by_cases hp : p.subscription = j <;> simp [hp, hne]
  have hnone : ps.filter (·.subscription == j) = [] :=
    List.filter_eq_nil_iff.2 fun p hp => by simpa [hown p hp] using hne.symm
  rw [due, due, replaceProspects, filter_sortBy Prospect.le_total Prospect.le_trans,
    List.filter_append, hkeep, hnone, List.append_nil, Prospect.sortBy_le_of_own
      (fun p hp => by simpa using (List.mem_filter.1 hp).2) (hdate.sublist List.filter_sublist)]

theorem ahead_of_front (hfront : r.prospects = p :: ps) :
    r.ahead i = if p.subscription = i then p.phase :: ({ r with prospects := ps } : Replay).ahead i
      else ({ r with prospects := ps } : Replay).ahead i := by
  rw [ahead, due_of_front hfront, apply_ite (List.map _)]
  rfl

end Replay

/-! ## The invariant -/

namespace Rework

variable {w : Rework} {date : Instant} {t : Target}

/-- Where the subscription stands behind all its events. -/
def cursor (w : Rework) : Cursor := Cursor.start.through w.events

theorem cursor_adding (w : Rework) (e : Event) : (w.adding e).cursor = w.cursor.after e := by
  rw [cursor, adding_events, Cursor.through_append]
  rfl

theorem reached_eq_cursor (hcalm : Calm w.events)
    (hdate : ∀ e ∈ w.events, e.effective ≤ date) : reached w.events date = w.cursor := by
  rw [reached, hcalm.effectiveEvents_eq, List.filter_eq_self.2 fun e he => by
    simpa using hdate e he]
  rfl

theorem liveAt?_eq (w : Rework) (date : Instant) : w.liveAt? date =
    (standingAt w.events w.subscription.category date).filter (·.target?.isSome) := by
  rw [liveAt?]
  cases hst : standingAt w.events w.subscription.category date with
  | none => rfl
  | some st => rw [Option.filter_some, Option.filter_some, standingAt_isLive hst]

theorem isSome_liveAt? (w : Rework) (date : Instant) :
    (w.liveAt? date).isSome = ((w.liveAt? date).bind (·.target?)).isSome := by
  rw [liveAt?_eq]
  cases standingAt w.events w.subscription.category date with
  | none => rfl
  | some st => cases htarget : st.target? <;> simp [Option.filter_some, htarget]

theorem target?_liveAt? (hcalm : Calm w.events) (hdate : ∀ e ∈ w.events, e.effective ≤ date) :
    (w.liveAt? date).bind (·.target?) = if w.cursor.cancelled then none else w.cursor.target := by
  rw [← reached_eq_cursor hcalm hdate, ← standingAt_bind_target? w.subscription.category,
    liveAt?_eq]
  cases standingAt w.events w.subscription.category date with
  | none => rfl
  | some st => cases htarget : st.target? <;> simp [Option.filter_some, htarget]

/-- A subscription that is live behind all its events is live at every date from then on. -/
theorem liveAt?_isSome (hcalm : Calm w.events) (hdate : ∀ e ∈ w.events, e.effective ≤ date)
    (hlive : w.cursor.cancelled = false) (ht : w.cursor.target = some t) :
    (w.liveAt? date).isSome = true := by
  rw [isSome_liveAt?, target?_liveAt? hcalm hdate, hlive, ht]
  rfl

end Rework

/-- Unless it is cancelled by then, the phases in prospect lead the subscription to one without
successor. -/
def Replay.Finishes (r : Replay) (catalog : Catalog) (w : Rework) : Prop :=
  w.cursor.cancelled = false → ∀ t, w.cursor.target = some t →
    catalog.IsFinal { t with phase := (r.ahead w.id).getLastD t.phase }

/-- Each subscription that something is done to has a proposal in line or finishes. -/
def Finishing (catalog : Catalog) (r : Replay) (ops : List Operation) : Prop :=
  ∀ w ∈ r.works, w.isTouched = true →
    (∃ op ∈ ops, op.subscription = w.id) ∨ r.Finishes catalog w

theorem Replay.Finishes.of_ahead {catalog : Catalog} {r r' : Replay} {w : Rework}
    (h : r.Finishes catalog w) (hahead : r'.ahead w.id = r.ahead w.id) : r'.Finishes catalog w := by
  rw [Finishes, hahead]
  exact h

/-! ## Moves -/

namespace Rework.Carried

variable {cx : ReplayContext} {w : Rework} {p : Proposal} {payload : Payload}
  {prospects : List Prospect}

theorem pairwise_prospects (h : w.Carried cx p payload prospects) :
    prospects.Pairwise (fun a b => a.date ≤ b.date) := by
  cases h with
  | creation _ _ halign =>
    exact Prospect.pairwise_ofSchedule (Catalog.alignOnCreate_seenAt halign) _
  | change _ _ _ halign =>
    exact Prospect.pairwise_ofSchedule (Catalog.alignOnChange_seenAt halign) _
  | cancel => exact .nil

/-- The target of a schedule and the phases in prospect with it lead to its last phase. -/
theorem isFinal_targetOf {plan : Plan} {spec : PlanSpec} {schedule : Schedule} {i : SubscriptionId}
    {date : Instant} (hhas : cx.catalog.Has plan) (hfollows : schedule.Follows plan)
    (hahead : ∀ p ∈ schedule.upcoming, date < p.start) :
    cx.catalog.IsFinal { targetOf plan spec schedule with
      phase := ((Prospect.ofSchedule i schedule date).map (·.phase)).getLastD
        (targetOf plan spec schedule).phase } := by
  refine ⟨plan, hhas, rfl, ?_⟩
  show plan.EndsOn (((Prospect.ofSchedule i schedule date).map (·.phase)).getLastD
    schedule.current.phase.name)
  rw [Prospect.ofSchedule_last fun last hlast => hahead last (List.mem_of_getLast? hlast)]
  exact hfollows.ends

/-- A proposal that is carried out leaves the subscription cancelled, or on course for a phase
without successor. -/
theorem isFinal (hcat : cx.catalog.IsSteady) (h : w.Carried cx p payload prospects) {c : Cursor}
    {e : Event} (he : e.payload = payload) (hlive : (c.after e).cancelled = false) {t : Target}
    (ht : (c.after e).target = some t) :
    cx.catalog.IsFinal { t with phase := (prospects.map (·.phase)).getLastD t.phase } := by
  -- Only a creation does anything to a cursor that is cancelled.
  have hactive (hstart : ¬ e.type.startsSubscription = true) : c.cancelled = false :=
    Bool.eq_false_iff.2 fun hc => by
      rw [(after_of_not_live hc).resolve_right hstart, hc] at hlive
      cases hlive
  cases h with
  | @creation plan spec schedule htype hfound halign =>
    have hhas := hcat.found _ _ _ (planFor_eq_ok.1 hfound).2.1
    have hseen := Catalog.alignOnCreate_seenAt halign
    have hstart : e.type.startsSubscription = true := by
      unfold Event.type
      rw [he]
      split <;> rfl
    have hlead : e.payload.lead none = some (targetOf plan spec schedule) := by
      rw [he]
      split <;> rfl
    rw [after_of_starts hstart c none] at ht
    cases hlead.symm.trans ht
    exact isFinal_targetOf hhas (hseen.follows (hcat.durations plan hhas)) hseen.ahead
  | @change current plan spec schedule htype _ hfound halign =>
    have hhas := hcat.found _ _ _ (planFor_eq_ok.1 hfound).2.1
    have hseen := Catalog.alignOnChange_seenAt halign
    have htype : e.type = .change := congrArg Payload.type he
    have hc := hactive (by simp [htype, EventType.startsSubscription])
    rw [after_of_active hc rfl, if_neg (by simp [htype]), he] at ht
    obtain ⟨_, -, rfl⟩ := Option.map_eq_some_iff.1 ht
    exact isFinal_targetOf hhas (hseen.follows (hcat.durations plan hhas)) hseen.ahead
  | cancel =>
    have htype : e.type = .cancel := congrArg Payload.type he
    have hc := hactive (by simp [htype, EventType.startsSubscription])
    rw [after_of_active hc rfl, if_pos htype] at hlive ht
    rw [show c.target = some t from ht] at hlive
    cases hlive

end Rework.Carried

namespace Finishing

variable {cx : ReplayContext} {r : Replay} {ops : List Operation}

theorem enter {catalog : Catalog} {p : Prospect} {ps : List Prospect} (h : Finishing catalog r ops)
    (hsweep : Sweep cx r ops) (hfront : r.prospects = p :: ps) :
    Finishing catalog (Replay.enter cx { r with prospects := ps } p) ops := by
  have hother {w : Rework} (hw : w ∈ r.works) (ht : w.isTouched = true)
      (hne : w.id ≠ p.subscription) {r' : Replay} (hps : r'.prospects = ps) :
      (∃ op ∈ ops, op.subscription = w.id) ∨ r'.Finishes catalog w := by
    refine (h w hw ht).imp_right fun hfin => hfin.of_ahead ?_
    rw [Replay.ahead_of_front hfront, if_neg (Ne.symm hne), Replay.ahead, Replay.due, hps]
    rfl
  have hdate : ∀ w ∈ r.works, w.id = p.subscription → ∀ e ∈ w.events, e.effective ≤ p.date :=
    fun w hw hid e he => (hsweep.inLine w hw e he).1 p (by simp [hfront]) hid.symm
  unfold Replay.enter
  split
  · intro w' hw' ht
    rcases Replay.mem_record_works.1 hw' with ⟨hw, hne⟩ | ⟨w, hw, hid, rfl⟩
    · exact hother hw ht hne rfl
    · apply (h w hw ht).imp_right
      intro hfin hlive t htarget
      rw [Rework.cursor_adding] at hlive htarget
      cases hc : w.cursor.cancelled with
      | true =>
        rw [(after_of_not_live hc).resolve_right
          (by simp [Payload.type, EventType.startsSubscription]), hc] at hlive
        cases hlive
      | false =>
        rw [after_of_active hc rfl, if_neg (by simp [Payload.type])] at htarget
        obtain ⟨held, hheld, rfl⟩ := Option.map_eq_some_iff.1 htarget
        have hfinal := hfin hc held hheld
        rw [Replay.ahead_of_front hfront, if_pos hid.symm, List.getLastD_cons] at hfinal
        exact hfinal
  next hnone =>
    intro w hw ht
    by_cases hid : w.id = p.subscription
    · -- A subscription that is not on a plan is left as it is.
      right
      intro hlive t htarget
      have hlivedAt :=
        Rework.liveAt?_isSome (hsweep.settled w hw).calm (hdate w hw hid) hlive htarget
      have hwork : Replay.work? { r with prospects := ps } p.subscription = some w :=
        hid ▸ find?_of_nodup hsweep.ids hw
      rw [hwork, Option.bind_some] at hnone
      rw [hnone] at hlivedAt
      cases hlivedAt
    · exact hother hw ht hid rfl

theorem perform {op : Operation} {w : Rework} {payload : Payload} {prospects : List Prospect}
    (h : Finishing cx.catalog r (op :: ops)) (hcat : cx.catalog.IsSteady)
    (hsweep : Sweep cx r (op :: ops)) (hw : r.work? op.subscription = some w)
    (hout : w.Carried cx op.proposal payload prospects) :
    Finishing cx.catalog
      ((r.record cx op.subscription op.proposal.effective payload).replaceProspects
        op.subscription prospects) ops := by
  have hown : ∀ q ∈ prospects, q.subscription = op.subscription := by
    intro q hq
    rw [(hout.prospect q hq).1, (Sweep.work?_mem hw).2]
  intro w' hw' ht
  rcases Replay.mem_record_works.1 hw' with ⟨hw', hne⟩ | ⟨w', hw', hid, rfl⟩
  · rcases h w' hw' ht with ⟨op', hop', hid⟩ | hfin
    · refine .inl ⟨op', (List.mem_cons.1 hop').resolve_left fun heq => hne ?_, hid⟩
      rw [← hid, heq]
    · exact .inr (hfin.of_ahead (congrArg (List.map _)
        (Replay.due_replaceProspects_other hne hown hsweep.prospects)))
  · right
    intro hlive t htarget
    rw [Rework.cursor_adding] at hlive htarget
    rw [Rework.adding_id, hid, Replay.ahead,
      Replay.due_replaceProspects_self hown hout.pairwise_prospects]
    exact hout.isFinal hcat rfl hlive htarget

theorem skip {catalog : Catalog} {op : Operation} (h : Finishing catalog r (op :: ops))
    (hw : r.work? op.subscription = none) : Finishing catalog r ops := by
  intro w hmem ht
  rcases h w hmem ht with ⟨op', hop', hid⟩ | hfin
  · refine .inl ⟨op', (List.mem_cons.1 hop').resolve_left fun heq => ?_, hid⟩
    have hne := List.find?_eq_none.1 hw w hmem
    rw [← hid, heq] at hne
    simp at hne
  · exact .inr hfin

theorem performAll {r' : Replay} (h : Finishing cx.catalog r ops) (hcat : cx.catalog.IsSteady)
    (hsweep : Sweep cx r ops) (hr : r.performAll cx ops = .ok r') :
    ∀ w ∈ r'.works, w.isTouched = true → w.cursor.cancelled = false →
      ∀ t, w.cursor.target = some t → cx.catalog.IsFinal t := by
  obtain ⟨⟨-, hend⟩, hnone⟩ := Replay.performAll_induct
    (P := fun r ops => Sweep cx r ops ∧ Finishing cx.catalog r ops)
    (fun _ _ _ _ hfront hnext ⟨hs, h⟩ => ⟨hs.enter hfront hnext, h.enter hs hfront⟩)
    (fun _ _ _ _ _ _ _ hw hout ⟨hs, h⟩ => ⟨hs.perform hw (Rework.carried_of_eq_ok hout),
      h.perform hcat hs hw (Rework.carried_of_eq_ok hout)⟩)
    (fun _ _ _ hw ⟨hs, h⟩ => ⟨hs.skip, h.skip hw⟩) hr ⟨hsweep, h⟩
  intro w hw ht hlive t htarget
  have hfinal := ((hend w hw ht).resolve_left (by simp)) hlive t htarget
  rw [Replay.ahead, Replay.due, hnone] at hfinal
  exact hfinal

end Finishing

/-! ## The start of the sweep -/

theorem next_of_cancelled {c : Cursor} {es : List Event} {t : Transition}
    (h : t ∈ transitionsFrom c es) (ht : t.activity = .cancelled) : t.next = none := by
  obtain ⟨c', hc⟩ := exists_admits_of_mem h
  exact (hc.cancels (hc.type_of_cancelled ht)).1

/-- Only what leads nowhere put no schedule in motion. -/
theorem Catalog.next_of_alignTransition {catalog : Catalog} {anchors : Anchors} {t : Transition}
    (h : catalog.alignTransition anchors t = .ok none) : t.next = none := by
  unfold alignTransition at h
  split at h
  next hnext => exact hnext
  next target _ =>
    simp only [bind_eq_ok, liftCatalog_eq_ok] at h
    obtain ⟨plan, -, aligned, -, h⟩ := h
    split at h
    · cases h
    · split at h
      · simp [throw_ne_ok] at h
      · obtain ⟨chain, -, hsome⟩ := bind_eq_ok.1 h
        cases hsome

namespace Rework

variable {cx : ReplayContext} {w : Rework}

/-- The subscription is only cut back, and what is kept of it reaches past the beginning of the last
phase that its last transition put in motion. -/
def Overstays (w : Rework) (cx : ReplayContext) : Prop :=
  w.deleted ≠ [] ∧ w.proposals = [] ∧ ∃ date t schedule last,
    w.lastKept? = some date ∧ (transitions w.kept).getLast? = some t ∧ t.activity = .active ∧
      cx.catalog.alignTransition (w.anchors cx) t = .ok (some schedule) ∧
        schedule.upcoming.getLast? = some last ∧ last.start ≤ date

/-- The phases still owed are those of the schedule that the last transition put in motion. -/
theorem owedPhases_eq_ok {owed : List Prospect} {date : Instant} {t : Transition}
    (h : w.owedPhases cx = .ok owed) (htouched : w.isTouched = true) (hre : w.isRecreated = false)
    (hdate : w.lastKept? = some date) (ht : (transitions w.kept).getLast? = some t)
    (hactive : t.activity = .active) (hnext : t.next ≠ none) :
    ∃ schedule, cx.catalog.alignTransition (w.anchors cx) t = .ok (some schedule) ∧
      owed = Prospect.ofSchedule w.id schedule date := by
  rw [owedPhases, if_neg (by simp [htouched, hre])] at h
  simp only [hdate, ht, hactive, reduceCtorEq, if_false] at h
  obtain ⟨schedule, halign, rfl⟩ := map_eq_ok.1 h
  cases schedule with
  | none => exact (hnext (Catalog.next_of_alignTransition halign)).elim
  | some schedule => exact ⟨schedule, halign, rfl⟩

end Rework

theorem Replay.filter_owed {cx : ReplayContext} {works : List Rework} {owed : List (List Prospect)}
    (h : List.Forall₂ (fun w ps => w.owedPhases cx = .ok ps) works owed)
    (hids : (works.map (·.id)).Nodup) {w : Rework} (hw : w ∈ works) :
    w.owedPhases cx = .ok (owed.flatten.filter (·.subscription == w.id)) := by
  induction h with
  | nil => cases hw
  | @cons w' ps works owed hps hrest ih =>
    obtain ⟨hnew, hids⟩ := List.nodup_cons.1 hids
    have hown := fun p hp => (Rework.owedPhases_behind hps p hp).1
    rw [List.flatten_cons, List.filter_append]
    rcases List.mem_cons.1 hw with rfl | hw
    · have hnone : owed.flatten.filter (·.subscription == w.id) = [] :=
        List.filter_eq_nil_iff.2 fun p hp => by
          obtain ⟨w', hw', ps', hps', hp⟩ := mem_owed hrest hp
          have hne : w'.id ≠ w.id := fun hid => hnew (List.mem_map.2 ⟨w', hw', hid⟩)
          simpa [(Rework.owedPhases_behind hps' p hp).1] using hne
      rw [hnone, List.append_nil, List.filter_eq_self.2 fun p hp => by simp [hown p hp]]
      exact hps
    · have hne : w'.id ≠ w.id := fun hid => hnew (List.mem_map.2 ⟨w, hw, hid.symm⟩)
      rw [List.filter_eq_nil_iff.2 fun p hp => by simpa [hown p hp] using hne, List.nil_append]
      exact ih hids hw

/-- A subscription that is live behind all its events is on the target of its last transition. -/
theorem transitions_getLast?_of_live {es : List Event} (h : Settled es) {t : Target}
    (hlive : (Cursor.start.through es).cancelled = false)
    (ht : (Cursor.start.through es).target = some t) :
    ∃ last, (transitions es).getLast? = some last ∧ last.next = some t ∧
      last.activity = .active := by
  have hlast := ((tells_through es).target hlive).symm.trans ht
  obtain ⟨last, hmem, hnext⟩ := Option.bind_eq_some_iff.1 hlast
  refine ⟨last, ?_, hnext, ?_⟩
  · rw [transitions, h.effectiveEvents_eq]
    exact hmem
  · cases hactivity : last.activity with
    | active => rfl
    | cancelled =>
      rw [next_of_cancelled (List.mem_of_getLast? hmem) hactivity] at hnext
      cases hnext

/-- And one whose last transition is no cancellation is live there. -/
theorem Cursor.through_of_getLast? {es : List Event} {t : Transition}
    (h : (transitionsFrom .start es).getLast? = some t) (hactive : t.activity ≠ .cancelled) :
    ∃ target, t.next = some target ∧ Cursor.start.through es = ⟨some target, false⟩ := by
  induction es using List.reverseRecOn with
  | nil => cases h
  | append_singleton es e ih =>
    rw [transitionsFrom_append] at h
    rw [through_append, through_singleton, after]
    cases hu : (Cursor.start.through es).transition? e with
    | none =>
      simp only [transitionsFrom, hu, List.append_nil] at h
      exact ih h
    | some u =>
      simp only [transitionsFrom, hu, List.getLast?_concat, Option.some.injEq] at h
      subst h
      have hother : u.type ≠ .cancel := fun hcancel => hactive ((admits hu).cancels hcancel).2
      obtain ⟨hnext, -⟩ := (admits hu).leads hother
      obtain ⟨target, htarget⟩ := Option.isSome_iff_exists.1 hnext
      exact ⟨target, htarget, by simp [(admits hu).advance_eq, hother, htarget]⟩

/-- A subscription without proposals is led on by the phases owed to it. -/
theorem Finishing.start {cx : ReplayContext} {works : List Rework} {owed : List (List Prospect)}
    (hcat : cx.catalog.IsSteady) (hids : (works.map (·.id)).Nodup)
    (hprep : ∀ w ∈ works, w.Prepared ∧ w.added = []) (hsettled : ∀ w ∈ works, Settled w.kept)
    (hstays : ∀ w ∈ works, ¬ w.Overstays cx)
    (howed : List.Forall₂ (fun w ps => w.owedPhases cx = .ok ps) works owed) :
    Finishing cx.catalog ⟨works, sortBy Prospect.le owed.flatten, 0⟩ (Replay.agenda works) := by
  intro w hw htouched
  cases hproposals : w.proposals with
  | cons p ps => exact .inl ⟨⟨w.id, p⟩, Replay.mem_agenda.2 ⟨w, hw, rfl, by simp [hproposals]⟩, rfl⟩
  | nil =>
    right
    intro hlive t htarget
    have hre : w.isRecreated = false := by simp [Rework.isRecreated, hproposals]
    have hdeleted : w.deleted ≠ [] := by simpa [Rework.isTouched, hproposals] using htouched
    have hevents : w.events = w.kept := by simp [Rework.events, (hprep w hw).2]
    rw [Rework.cursor, hevents] at hlive htarget
    obtain ⟨last, htransition, hnext, hactive⟩ :=
      transitions_getLast?_of_live (hsettled w hw) hlive htarget
    obtain ⟨date, hdate⟩ : ∃ date, w.lastKept? = some date := by
      apply Option.ne_none_iff_exists'.1
      intro hnone
      rw [(hprep w hw).1.recreated.2 (Rework.lastKept?_eq_none.1 hnone)] at hre
      cases hre
    -- That transition has been given a schedule, of which the phases ahead are owed.
    obtain ⟨schedule, halign, hown⟩ := Rework.owedPhases_eq_ok (Replay.filter_owed howed hids hw)
      htouched hre hdate htransition hactive (by simp [hnext])
    obtain ⟨target, plan, htarget', hhas, hname, hfollows, hcurrent⟩ :=
      Catalog.alignTransition_follows hcat halign
    obtain ⟨_, _, -, -, hseen⟩ := Catalog.alignTransition_seenAt halign
    cases hnext.symm.trans htarget'
    have hahead : Replay.ahead ⟨works, sortBy Prospect.le owed.flatten, 0⟩ w.id =
        (Prospect.ofSchedule w.id schedule date).map (·.phase) := by
      rw [Replay.ahead, Replay.due, filter_sortBy Prospect.le_total Prospect.le_trans, hown,
        Prospect.sortBy_le_of_own (fun _ => Prospect.ofSchedule_own)
          (Prospect.pairwise_ofSchedule hseen date)]
    refine ⟨plan, hhas, hname, ?_⟩
    rw [hahead, ← hcurrent, Prospect.ofSchedule_last fun final hfinal => ?_]
    · exact hfollows.ends
    · exact Int.not_le.1 fun hle => hstays w hw
        ⟨hdeleted, hproposals, date, last, schedule, final, hdate, htransition, hactive, halign,
          hfinal, hle⟩

/-! ## Repairs -/

namespace Catalog.Completes

variable {catalog : Catalog} {es fs : List Event}

theorem congr (h : (effectiveEvents es).map (·.payload) = (effectiveEvents fs).map (·.payload))
    (hfs : catalog.Completes fs) : catalog.Completes es := by
  rw [Completes, reached_last, Cursor.through_congr h, ← reached_last, course, h]
  exact hfs

end Catalog.Completes

namespace Planned

variable {b : Workbench} {cx : ReplayContext} {repair : Repair} {view : String}
  {works : List Rework} {plan : RepairPlan}

theorem completes (h : Planned b cx repair view works plan)
    (hload : Loaded b.subscriptions cx.ids) (hcat : cx.catalog.IsSteady)
    (hstays : ∀ w ∈ b.works, ¬ w.Overstays cx) {w : Rework} (hw : w ∈ works)
    (htouched : w.isTouched = true) : cx.catalog.Completes w.events := by
  obtain ⟨owed, howed, hsweep, r, hr, rfl⟩ := h.swept hload
  have hfinishing := Finishing.start hcat (hload.workIds h.benched) (fun w => h.benched_prepared)
    (fun w hw => hload.settled_kept (Loaded.mem_of_work h.benched hw) (h.benched_prepared hw).1)
    hstays howed
  have hfinal := hfinishing.performAll hcat hsweep hr w hw htouched
  have hsettled := ((hsweep.performAll hr).settled w hw).effectiveEvents_eq
  have hreached : reached w.events .last = w.cursor := by
    rw [reached_last, hsettled]
    rfl
  cases hlive : w.cursor.cancelled with
  | true => exact .inl (hreached ▸ hlive)
  | false =>
    refine .inr fun t ht => hfinal hlive t ?_
    have htarget : w.cursor.target = leads none (w.events.map (·.payload)) :=
      target_through (fun _ => rfl) hlive
    rw [course, hsettled] at ht
    exact htarget.trans ht

variable {bundle : Bundle} {benched : List Rework} {s t : Store} {i : BundleId} {r : Replay}

theorem completes_revised
    (hp : Planned ⟨bundle, s.subscriptionsOf i, benched⟩ cx repair view r.works plan)
    (hs : s.Sound) (hids : Unused cx.ids (·.id) s.events) (hsweep : Sweep cx r [])
    (hrows : Rows s t (Store.reviseAll plan.commit.subscriptions) []
      (s.revised plan.commit.subscriptions))
    (hdates : ∀ w ∈ r.works, ∀ e ∈ w.events, e.effective.RoundsDown)
    (hcat : cx.catalog.IsSteady) (hstays : ∀ w ∈ benched, ¬ w.Overstays cx) {w : Rework}
    (hw : w ∈ r.works) (htouched : w.isTouched = true) {q : SubscriptionRecord} (hq : q ∈ s.records)
    (hid : q.id = w.id) :
    cx.catalog.Completes (t.shown (Store.reviseAll plan.commit.subscriptions q)) := by
  have hload : Loaded (s.subscriptionsOf i) cx.ids := hs.loaded i hids
  have hall := hp.effectiveEvents_revised hs hids hsweep hrows hw htouched
    ((hsweep.settled w hw).staysInOrder (hdates w hw)) hq hid
  rw [Store.effectiveEvents_visible (hrows.tidy hs.tidy)] at hall
  refine (hp.completes hload hcat hstays hw htouched).congr ?_
  rw [(hsweep.settled w hw).effectiveEvents_eq]
  generalize effectiveEvents _ = fs at hall ⊢
  generalize w.events = es at hall ⊢
  induction hall with
  | nil => rfl
  | cons hfe _ ih =>
    obtain ⟨k, rfl⟩ := hfe
    rw [List.map_cons, List.map_cons, ih, Event.filed_payload]

end Planned

end Tenure
