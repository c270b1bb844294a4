import Tenure.Proofs.Apart

/-!
# Identifiers of new events are names only

The new events of a repair are numbered as they arise. From the number an event gets its ordering,
which says where it stands, and its identifier, which is one that was not given out before.

**Theorem (`planRepair_reissued`).** With other identifiers a repair comes to the same, with its new
events under the other identifiers (`RepairPlan.reissued`).

Identifiers are looked at in two places: to leave events out that have lost their effect, and to put
events in order that tie in date and ordering. New events stand behind all others under rising
orderings (`Rework.Rising`). So none of them takes the effect of another event away or ties with
one, and each sweep makes the moves of the other (`Abreast.performAll_reissued`). Nothing is asked
of the identifiers; they may even have been given out.
-/

namespace Tenure

/-! ## Other identifiers -/

/-- The event under one of these identifiers, if it is a new one. New events have orderings from
`first` on. -/
def Event.reissued (first : Nat) (ids : Nat → EventId) (e : Event) : Event :=
  if first ≤ e.ordering then { e with id := ids (e.ordering - first) } else e

namespace Event

variable {first : Nat} {ids : Nat → EventId} {e : Event}

theorem reissued_of_lt (h : e.ordering < first) : e.reissued first ids = e :=
  if_neg (Nat.not_le.2 h)

@[simp] theorem reissued_ordering : (e.reissued first ids).ordering = e.ordering := by
  unfold reissued
  split <;> rfl

@[simp] theorem reissued_timed : (e.reissued first ids).timed = e.timed := by
  unfold reissued
  split <;> rfl

end Event

/-- The plan with its new events under other identifiers. -/
def RepairPlan.reissued (first : Nat) (ids : Nat → EventId) (plan : RepairPlan) : RepairPlan where
  view :=
    { plan.view with
      subscriptions := plan.view.subscriptions.map fun t =>
        { t with new := t.new.map (Event.reissued first ids) } }
  commit :=
    { plan.commit with
      subscriptions := plan.commit.subscriptions.map fun s =>
        { s with events := s.events.map (Event.reissued first ids) } }

namespace ReplayContext

/-- The context with other identifiers to give out. -/
def issuing (cx : ReplayContext) (ids : Nat → EventId) : ReplayContext := { cx with ids }

/-- A new event of the context under another identifier. -/
def reissue (cx : ReplayContext) (ids : Nat → EventId) : Event → Event :=
  Event.reissued cx.firstOrdering ids

section Reissue

variable (cx : ReplayContext) (ids : Nat → EventId) (e : Event)

@[simp] theorem reissue_ordering : (cx.reissue ids e).ordering = e.ordering :=
  Event.reissued_ordering

@[simp] theorem reissue_timed : (cx.reissue ids e).timed = e.timed := Event.reissued_timed

end Reissue

end ReplayContext

variable {cx : ReplayContext} {ids : Nat → EventId}

/-! ## Subscriptions -/

namespace Rework

/-- The subscription with its new events under other identifiers. -/
def reissued (w : Rework) (cx : ReplayContext) (ids : Nat → EventId) : Rework :=
  { w with added := w.added.map (cx.reissue ids) }

variable {w : Rework} {p : Proposal} {date : Instant}

theorem map_timed_reissued (w : Rework) :
    (w.reissued cx ids).events.map (·.timed) = w.events.map (·.timed) := by
  rw [events, events, List.map_append, List.map_append, reissued, List.map_map]
  exact congrArg _ (List.map_congr_left fun _ _ => cx.reissue_timed ids _)

theorem adding_reissued (w : Rework) (e : Event) :
    (w.adding e).reissued cx ids = (w.reissued cx ids).adding (cx.reissue ids e) := by
  simp [reissued, adding]

theorem reissued_of_added_nil (h : w.added = []) : w.reissued cx ids = w := by
  rw [reissued, h, List.map_nil, ← h]

namespace Rising

theorem reissued (h : w.Rising cx) : (w.reissued cx ids).Rising cx where
  kept := h.kept
  behind := h.behind
  fresh := by
    refine List.forall_mem_map.2 fun e he => ?_
    rw [ReplayContext.reissue_ordering]
    exact h.fresh e he
  rises := List.pairwise_map.2 <| h.rises.imp fun hlt => by
    rwa [ReplayContext.reissue_ordering, ReplayContext.reissue_ordering]
  dates := pairwise_timed (R := fun s t => s.effective ≤ t.effective) (map_timed_reissued w)
    h.dates
  uncancels := by
    refine forall_timed (P := (·.payload.type ≠ .uncancel)) ?_ h.uncancels
    rw [Rework.reissued, List.map_map]
    exact List.map_congr_left fun _ _ => cx.reissue_timed ids _

theorem target?_reissued (h : w.Rising cx) (hdate : ∀ e ∈ w.events, e.effective ≤ date) :
    ((w.reissued cx ids).liveAt? date).bind (·.target?) = (w.liveAt? date).bind (·.target?) :=
  target?_congr h.calm h.reissued.calm (map_timed_reissued w) hdate

theorem carryOut_reissued (h : w.Rising cx) (hdate : ∀ e ∈ w.events, e.effective ≤ p.effective) :
    (w.reissued cx ids).carryOut (cx.issuing ids) p = w.carryOut cx p := by
  have hcarry : (w.reissued cx ids).carryOut (cx.issuing ids) p = w.carryOut (cx.issuing ids) p :=
    carryOut_congr rfl (h.target?_reissued hdate)
  exact hcarry

end Rising

end Rework

/-! ## Sweeps -/

namespace Replay

/-- The replay with the new events under other identifiers. -/
def reissued (r : Replay) (cx : ReplayContext) (ids : Nat → EventId) : Replay :=
  { r with works := r.works.map (·.reissued cx ids) }

variable {r : Replay}

theorem next_reissued (i : SubscriptionId) (date : Instant) (payload : Payload) :
    next (cx.issuing ids) (r.reissued cx ids) i date payload =
      cx.reissue ids (next cx r i date payload) := by
  rw [ReplayContext.reissue, Event.reissued, next_ordering, if_pos (Nat.le_add_right _ _),
    Nat.add_sub_cancel_left]
  rfl

theorem record_reissued (i : SubscriptionId) (date : Instant) (payload : Payload) :
    (r.reissued cx ids).record (cx.issuing ids) i date payload =
      (r.record cx i date payload).reissued cx ids := by
  have hworks : ((r.reissued cx ids).record (cx.issuing ids) i date payload).works =
      (r.record cx i date payload).works.map (·.reissued cx ids) := by
    rw [record_works, record_works, reissued, List.map_map, List.map_map]
    refine List.map_congr_left fun w _ => ?_
    rw [Function.comp_apply, Function.comp_apply]
    rw [apply_ite (Rework.reissued · cx ids), Rework.adding_reissued, ← next_reissued]
    rfl
  exact congrArg (fun works => { r.record cx i date payload with works }) hworks

theorem work?_reissued (i : SubscriptionId) :
    (r.reissued cx ids).work? i = (r.work? i).map (·.reissued cx ids) :=
  List.find?_map ..

end Replay

namespace Abreast

variable {r : Replay} {ops : List Operation}

variable (ids) in
theorem enter_reissued {q : Prospect} {qs : List Prospect} (h : Abreast cx r ops)
    (hfront : r.prospects = q :: qs) (ps : List Prospect) :
    Replay.enter (cx.issuing ids) (Replay.reissued { r with prospects := ps } cx ids) q =
      (Replay.enter cx { r with prospects := ps } q).reissued cx ids := by
  unfold Replay.enter
  rw [Replay.work?_reissued]
  cases hw : Replay.work? { r with prospects := ps } q.subscription with
  | none => rfl
  | some w =>
    obtain ⟨hmem, hid⟩ := Sweep.work?_mem (r := { r with prospects := ps }) hw
    obtain ⟨said, entered, ps, hin⟩ := h.inStep w hmem
    have hdue : q ∈ r.due w.id := by simp [Replay.due, hfront, hid]
    have hsome : ((w.reissued cx ids).liveAt? q.date).isSome = (w.liveAt? q.date).isSome := by
      rw [Rework.isSome_liveAt?, Rework.isSome_liveAt?,
        hin.rising.target?_reissued fun e he => (hin.ahead e he).1 q hdue]
    rw [Option.map_some, Option.bind_some, Option.bind_some]
    cases hlive : w.liveAt? q.date <;> cases hlive' : (w.reissued cx ids).liveAt? q.date
    · rfl
    · simp [hlive, hlive'] at hsome
    · simp [hlive, hlive'] at hsome
    · exact Replay.record_reissued ..

theorem foldl_enter_reissued {ps rest : List Prospect}
    (h : Abreast cx { r with prospects := ps ++ rest } ops)
    (hps : ∀ p ∈ ps, ∀ op ∈ ops.head?, p.date < op.proposal.effective) :
    ps.foldl (Replay.enter (cx.issuing ids)) (Replay.reissued { r with prospects := rest } cx ids) =
      (ps.foldl (Replay.enter cx) { r with prospects := rest }).reissued cx ids := by
  induction ps generalizing r with
  | nil => rfl
  | cons p ps ih =>
    have hnext := h.enter (r := { r with prospects := p :: (ps ++ rest) }) rfl (hps p (by simp))
    have hstep :=
      h.enter_reissued ids (r := { r with prospects := p :: (ps ++ rest) }) rfl rest
    rw [Replay.enter_prospects] at hnext
    rw [List.foldl_cons, List.foldl_cons, hstep, Replay.enter_prospects]
    exact ih hnext fun q hq => hps q (by simp [hq])

theorem advanceTo_reissued {op : Operation} (h : Abreast cx r (op :: ops)) :
    (r.reissued cx ids).advanceTo (cx.issuing ids) op.proposal.effective =
      (r.advanceTo cx op.proposal.effective).reissued cx ids := by
  have hstart : Abreast cx { r with
      prospects := r.prospects.takeWhile (·.date < op.proposal.effective) ++
        r.prospects.dropWhile (·.date < op.proposal.effective) } (op :: ops) := by
    rwa [List.takeWhile_append_dropWhile]
  exact foldl_enter_reissued hstart fun p hp => by simpa using List.mem_takeWhile_imp hp

variable (ids) in
/-- With other identifiers the sweep makes the same moves. -/
theorem performAll_reissued (h : Abreast cx r ops) :
    (r.reissued cx ids).performAll (cx.issuing ids) ops =
      (r.performAll cx ops).map (·.reissued cx ids) := by
  induction ops generalizing r with
  | nil =>
    have hstart : Abreast cx { r with prospects := r.prospects ++ [] } [] := by
      rwa [List.append_nil]
    exact congrArg Except.ok (foldl_enter_reissued hstart (by simp))
  | cons op ops ih =>
    have hadvanced : Abreast cx (r.advanceTo cx op.proposal.effective) (op :: ops) :=
      Replay.advanceTo_of_moves (fun _ _ _ _ hfront hnext h => h.enter hfront hnext) h
    have hnext : ∀ q ∈ (r.advanceTo cx op.proposal.effective).prospects.head?,
        op.proposal.effective ≤ q.date := Replay.le_of_advanceTo
    simp only [Replay.performAll, Replay.perform]
    rw [h.advanceTo_reissued, Replay.work?_reissued]
    cases hw : (r.advanceTo cx op.proposal.effective).work? op.subscription with
    | none => exact ih (hadvanced.skip hw)
    | some w =>
      obtain ⟨hmem, hid⟩ := Sweep.work?_mem hw
      obtain ⟨said, entered, ps, hin⟩ := hadvanced.inStep w hmem
      obtain ⟨rest, rfl, -⟩ := hin.exists_rest hid.symm
      have hcarry : (w.reissued cx ids).carryOut (cx.issuing ids) op.proposal =
          w.carryOut cx op.proposal :=
        hin.rising.carryOut_reissued fun e he => (hin.ahead e he).2 _ (List.mem_cons_self ..)
      simp only [Option.map_some, hcarry]
      cases hout : w.carryOut cx op.proposal with
      | error err => rfl
      | ok out =>
        have hperformed := ih (hadvanced.perform hnext hw hout)
        simp only [Replay.record_reissued]
        exact hperformed

end Abreast

/-! ## Plans -/

/-- The timeline of a subscription with its new events under other identifiers. -/
theorem Workbench.timelineOf_reissued (works : List Rework) (s : Subscription) :
    timelineOf (works.map (·.reissued cx ids)) s =
      { timelineOf works s with new := (timelineOf works s).new.map (cx.reissue ids) } := by
  have hfind : (works.map (·.reissued cx ids)).find? (·.id == s.id) =
      (works.find? (·.id == s.id)).map (·.reissued cx ids) := List.find?_map ..
  unfold timelineOf
  rw [hfind]
  cases works.find? (·.id == s.id) with
  | none => rfl
  | some w =>
    have htouched : (w.reissued cx ids).isTouched = w.isTouched := rfl
    rw [Option.map_some, Option.filter_some, Option.filter_some, htouched]
    cases w.isTouched <;> rfl

namespace Repair.Passes

variable {repair : Repair} {b : Workbench} {view : String} (h : repair.Passes b view)
  (hord : cx.firstOrdering = b.nextOrdering)

include h hord

theorem run_reissued :
    Replay.run (cx.issuing ids) b.works =
      (Replay.run cx b.works).map (·.map (·.reissued cx ids)) := by
  have hfresh (prospects : List Prospect) :
      Replay.reissued ⟨b.works, prospects, 0⟩ cx ids = ⟨b.works, prospects, 0⟩ := by
    have hworks : b.works.map (·.reissued cx ids) = b.works :=
      (List.map_congr_left fun _ hw =>
        Rework.reissued_of_added_nil (h.work_prepared hw).2).trans (List.map_id _)
    exact congrArg (fun works => (⟨works, prospects, 0⟩ : Replay)) hworks
  unfold Replay.run
  show (b.works.mapM (·.owedPhases cx) >>= _) = _
  cases howed : b.works.mapM (·.owedPhases cx) with
  | error err => rfl
  | ok owed =>
    have hsweep := (h.abreast hord (mapM_eq_ok.1 howed)).performAll_reissued ids
    rw [hfresh] at hsweep
    simp only [bind, Except.bind, hsweep]
    cases Replay.performAll cx ⟨b.works, sortBy Prospect.le owed.flatten, 0⟩
      (Replay.agenda b.works) <;> rfl

theorem planOf_reissued {works : List Rework} (hrun : Replay.run cx b.works = .ok works)
    (context : CallContext) :
    b.planOf repair view context (works.map (·.reissued cx ids)) =
      (b.planOf repair view context works).reissued cx.firstOrdering ids := by
  have hrepaired : ∀ w ∈ works, b.repaired (w.reissued cx ids) =
      { b.repaired w with events := (b.repaired w).events.map (cx.reissue ids) } := by
    intro w hw
    obtain ⟨w₀, hw₀, hbare, -⟩ := exists_left_of_forall₂ (h.alone_of_run hord hrun) hw
    have hkept : w.kept.map (cx.reissue ids) = w.kept := by
      refine (List.map_congr_left fun e he => ?_).trans (List.map_id _)
      have he₀ : e ∈ w₀.kept := hbare ▸ he
      exact Event.reissued_of_lt ((h.rising hord hw₀).behind e he₀)
    have hevents : (w.reissued cx ids).events = w.events.map (cx.reissue ids) := by
      rw [Rework.events, Rework.events, List.map_append, hkept]
      rfl
    exact congrArg (fun events => { b.repaired w with events }) hevents
  have hcommit : ((works.map (·.reissued cx ids)).filter (·.isTouched)).map b.repaired =
      ((works.filter (·.isTouched)).map b.repaired).map fun s =>
        { s with events := s.events.map (cx.reissue ids) } := by
    have htouched : (Rework.isTouched ∘ fun w => w.reissued cx ids) = Rework.isTouched := rfl
    rw [List.filter_map, htouched, List.map_map, List.map_map]
    exact List.map_congr_left fun w hw => hrepaired w (List.mem_filter.1 hw).1
  have hview : b.subscriptions.map (Workbench.timelineOf (works.map (·.reissued cx ids))) =
      (b.subscriptions.map (Workbench.timelineOf works)).map fun t =>
        { t with new := t.new.map (cx.reissue ids) } := by
    rw [List.map_map]
    exact List.map_congr_left fun s _ => Workbench.timelineOf_reissued works s
  simp only [Workbench.planOf, RepairPlan.reissued, hview, hcommit]
  rfl

end Repair.Passes

/-- **Identifiers of new events are names only.** With other identifiers a repair comes to the same,
or fails with the same error, whatever the identifiers are. -/
theorem planRepair_reissued (catalog : Catalog) (bundle : Bundle) (view : String)
    (subs : List Subscription) (repair : Repair) (context : CallContext) (now : Instant)
    (ids ids' : Nat → EventId) :
    planRepair catalog bundle view subs repair context now ids' =
      (planRepair catalog bundle view subs repair context now ids).map
        (·.reissued (Workbench.nextOrdering ⟨bundle, subs, []⟩) ids') := by
  by_cases hpasses : ∃ works, repair.Passes ⟨bundle, subs, works⟩ view
  · obtain ⟨works, h⟩ := hpasses
    let cx := Workbench.replayContext ⟨bundle, subs, works⟩ catalog context now ids
    have hrun : Replay.run (cx.issuing ids') works =
        (Replay.run cx works).map (·.map (·.reissued cx ids')) := h.run_reissued rfl
    rw [h.planRepair_eq catalog context now ids,
      h.planRepair_eq catalog context now ids']
    show (Replay.run (cx.issuing ids') works).map _ = ((Replay.run cx works).map _).map _
    rw [hrun]
    cases hworked : Replay.run cx works with
    | error err => rfl
    | ok worked => exact congrArg Except.ok (h.planOf_reissued rfl hworked context)
  · obtain ⟨err, herr⟩ := planRepair_of_not_passes (not_exists.1 hpasses)
    rw [herr, herr]
    rfl

end Tenure
