import Tenure.Proofs.Replanning
import Tenure.Proofs.Stranding

/-!
# What a repair leaves of the past

A repair deletes events of a subscription and proposes others. At an instant before all of these the
subscription is afterwards what it was: begun or not, and cancelled or not. Only its phase can be
another one. For besides what is proposed a repair enters the phases resumed, those of the schedule
that the catalog lays out anew behind the last transition kept (`Rework.resumed`), and of these it
takes all that lie behind the last event kept, be it before the first edit or not.

That makes no difference as long as the catalog finds back the schedule by which the history was
written. But an import lays phases out from the date of its case, where a repair has the same
transition laid out as a creation, from the start of the bundle if the plan says so. The
subscription is then on another phase from the first one resumed on (`Step.Displaces`).

Until a proposal is carried out for a subscription a sweep only enters phases for it, so all that is
laid down or in prospect for it up to an instant before its proposals stays the same
(`Uneventful`).
-/

namespace Tenure

/-! ## Begun and cancelled -/

namespace Subscription

variable (sub : Subscription) (t : Instant)

/-- The subscription has begun by `t`. -/
def hasBegunAt : Bool := (sub.standingAt t).any (·.start ≤ t)

/-- It is cancelled at `t`. -/
def isCancelledAt : Bool := (sub.standingAt t).any (·.isCancelled)

theorem hasBegunAt_eq : sub.hasBegunAt t = (reached sub.events t).target.isSome := by
  unfold hasBegunAt standingAt
  cases htarget : (reached sub.events t).target with
  | some target =>
    obtain ⟨st, hst, hstart, -⟩ := standingAt_of_started sub.category (by rw [htarget]; rfl)
    rw [hst, Option.any_some, decide_eq_true hstart, Option.isSome_some]
  | none =>
    cases hst : Tenure.standingAt sub.events sub.category t with
    | none => rfl
    | some st => exact decide_eq_false (Int.not_le.2 (standingAt_of_not_started hst htarget).1)

theorem isCancelledAt_eq : sub.isCancelledAt t = (reached sub.events t).cancelled := by
  unfold isCancelledAt standingAt
  cases hst : Tenure.standingAt sub.events sub.category t with
  | some st => exact standingAt_isCancelled hst
  | none => exact (reached_cancelled_of_not_started (reached_target_of_none hst)).symm

theorem targetAt?_eq_reached : sub.targetAt? t =
    if (reached sub.events t).cancelled then none else (reached sub.events t).target :=
  standingAt_bind_target? sub.category t

end Subscription

/-! ## The sweep up to an instant -/

/-- What a script says up to `t`. -/
def soFar (xs : List TimedPayload) (t : Instant) : List TimedPayload :=
  xs.filter (·.effective.floorMillis ≤ t)

section SoFar

variable {xs ys : List TimedPayload} {date t : Instant}

theorem soFar_append (xs ys : List TimedPayload) (t : Instant) :
    soFar (xs ++ ys) t = soFar xs t ++ soFar ys t :=
  List.filter_append ..

theorem soFar_eq_nil (hdown : date.RoundsDown) (hdate : t < date.floorMillis)
    (hxs : ∀ x ∈ xs, date ≤ x.effective) : soFar xs t = [] :=
  List.filter_eq_nil_iff.2 fun x hx hle => absurd hdate (Int.not_lt.2
    (Int.le_trans (Instant.floorMillis_mono hdown (hxs x hx)) (of_decide_eq_true hle)))

theorem soFar_map_entry (phases : List TimedPhase) (t : Instant) :
    soFar (phases.map (·.entry)) t = (begun phases t).map (·.entry) :=
  List.filter_map ..

end SoFar

/-- Up to `t` a subscription has laid down or in prospect what the script `xs` says. No proposal is
in line for it by then, and it is on a plan as long as a phase is. -/
structure Uneventful (xs : List TimedPayload) (t : Instant) (r : Replay) (ops : List Operation)
    (w : Rework) : Prop where
  outlook : soFar (r.outlook w) t = soFar xs t
  line : ∀ op ∈ ops, op.subscription = w.id →
    op.proposal.effective.RoundsDown ∧ t < op.proposal.effective.floorMillis
  live : (∃ q ∈ r.due w.id, q.date.floorMillis ≤ t) → w.IsLive

namespace Uneventful

variable {cx : ReplayContext} {xs : List TimedPayload} {t : Instant} {r : Replay}
  {ops : List Operation} {i : SubscriptionId}

theorem enter {q : Prospect} {ps : List Prospect}
    (h : ∀ w ∈ r.works, w.id = i → Uneventful xs t r ops w) (hsweep : Sweep cx r ops)
    (hfront : r.prospects = q :: ps) :
    ∀ w ∈ (Replay.enter cx { r with prospects := ps } q).works, w.id = i →
      Uneventful xs t (Replay.enter cx { r with prospects := ps } q) ops w := by
  intro w' hw' hi
  have hdue {x : Prospect} {j : SubscriptionId}
      (hx : x ∈ (Replay.enter cx { r with prospects := ps } q).due j) : x ∈ r.due j := by
    rw [Replay.enter_prospects] at hx
    obtain ⟨hmem, hown⟩ := List.mem_filter.1 hx
    exact List.mem_filter.2 ⟨hfront ▸ List.mem_cons_of_mem _ hmem, hown⟩
  cases Replay.entered hsweep hfront hw' with
  | other hw _ houtlook =>
    obtain ⟨outlook, line, live⟩ := h w' hw hi
    exact ⟨houtlook ▸ outlook, line, fun ⟨x, hx, hle⟩ => live ⟨x, hdue hx, hle⟩⟩
  | @own w hw hid heq houtlook =>
    subst heq
    obtain ⟨outlook, line, live⟩ := h w hw hi
    exact ⟨houtlook ▸ outlook, line, fun ⟨x, hx, hle⟩ =>
      Rework.isLive_adding nofun (.inr (live ⟨x, hdue hx, hle⟩))⟩
  | dropped hw hid hnot hbefore houtlook =>
    obtain ⟨outlook, line, live⟩ := h w' hw hi
    refine ⟨?_, line, fun ⟨x, hx, hle⟩ => live ⟨x, hdue hx, hle⟩⟩
    -- A phase that had begun would have found the subscription on a plan.
    have hlate : ¬ q.date.floorMillis ≤ t := fun hle =>
      hnot (live ⟨q, List.mem_filter.2 ⟨hfront ▸ List.mem_cons_self, by simp [hid]⟩, hle⟩)
    have hskip {rest : List TimedPayload} : soFar (q.timed :: rest) t = soFar rest t :=
      List.filter_cons_of_neg fun hle => hlate (of_decide_eq_true hle)
    rw [houtlook, ← outlook, hbefore, soFar_append, soFar_append, hskip]

theorem perform {op : Operation} {w₀ : Rework} {payload : Payload} {prospects : List Prospect}
    (h : ∀ w ∈ r.works, w.id = i → Uneventful xs t r (op :: ops) w)
    (hsweep : Sweep cx r (op :: ops))
    (hnext : ∀ q ∈ r.prospects.head?, op.proposal.effective ≤ q.date)
    (hw₀ : r.work? op.subscription = some w₀) (hout : w₀.Carried cx op.proposal payload prospects) :
    ∀ w ∈ ((r.record cx op.subscription op.proposal.effective payload).replaceProspects
        op.subscription prospects).works, w.id = i →
      Uneventful xs t ((r.record cx op.subscription op.proposal.effective payload).replaceProspects
        op.subscription prospects) ops w := by
  intro w' hw' hi
  rcases Replay.mem_record_works.1 hw' with ⟨hw, hne⟩ | ⟨w, hw, hid, rfl⟩
  · obtain ⟨outlook, line, live⟩ := h w' hw hi
    refine ⟨?_, fun op' hop' => line op' (List.mem_cons_of_mem _ hop'), fun ⟨x, hx, hle⟩ => ?_⟩
    · rwa [Replay.outlook_carried_other hw₀ hout hsweep hne]
    · rw [Replay.due_carried_other hw₀ hout hsweep.prospects hne] at hx
      exact live ⟨x, hx, hle⟩
  · -- The proposal lies behind `t`, and so does what is in prospect before and after it.
    obtain ⟨outlook, line, -⟩ := h w hw hi
    obtain ⟨hdown, hlate⟩ := line op List.mem_cons_self hid.symm
    have hdue : soFar ((r.due w.id).map (·.timed)) t = [] :=
      soFar_eq_nil hdown hlate fun x hx => by
        obtain ⟨q, hq, rfl⟩ := List.mem_map.1 hx
        exact Replay.le_due hsweep.prospects hnext q hq
    have hprospects : ∀ q ∈ prospects, op.proposal.effective ≤ q.date := fun q hq =>
      Int.le_of_lt (hout.prospect q hq).2
    refine ⟨?_, fun op' hop' => line op' (List.mem_cons_of_mem _ hop'), fun ⟨q, hq, hle⟩ => ?_⟩
    · have hnew : soFar (⟨op.proposal.effective, payload⟩ :: prospects.map (·.timed)) t = [] :=
        soFar_eq_nil hdown hlate (List.forall_mem_cons.2
          ⟨Int.le_refl _, List.forall_mem_map.2 hprospects⟩)
      rw [Replay.outlook_carried_self hw₀ hout hid, ← outlook, Replay.outlook, soFar_append,
        soFar_append, hnew, hdue]
    · rw [Rework.adding_id, hid, Replay.due_carried_self hw₀ hout] at hq
      have hfloor := Instant.floorMillis_mono hdown (hprospects q hq)
      exact absurd hlate (Int.not_lt.2 (Int.le_trans hfloor hle))

theorem performAll {r' : Replay} (h : ∀ w ∈ r.works, w.id = i → Uneventful xs t r ops w)
    (hsweep : Sweep cx r ops) (hr : r.performAll cx ops = .ok r') :
    ∀ w ∈ r'.works, w.id = i → soFar (w.added.map (·.timed)) t = soFar xs t := by
  obtain ⟨⟨-, hend⟩, hnone⟩ := Replay.performAll_induct
    (P := fun r ops => Sweep cx r ops ∧ ∀ w ∈ r.works, w.id = i → Uneventful xs t r ops w)
    (fun _ _ _ _ hfront hnext ⟨hs, h⟩ => ⟨hs.enter hfront hnext, enter h hs hfront⟩)
    (fun _ _ _ _ _ _ hnext hw hout ⟨hs, h⟩ => ⟨hs.perform hw (Rework.carried_of_eq_ok hout),
      perform h hs hnext hw (Rework.carried_of_eq_ok hout)⟩)
    (fun _ _ _ _ ⟨hs, h⟩ => ⟨hs.skip, fun w hw hi =>
      { h w hw hi with line := fun op hop => (h w hw hi).line op (List.mem_cons_of_mem _ hop) }⟩)
    hr ⟨hsweep, h⟩
  intro w hw hi
  have houtlook := (hend w hw hi).outlook
  rwa [Replay.outlook, Replay.due, hnone, List.filter_nil, List.map_nil, List.append_nil]
    at houtlook

theorem start {works : List Rework} {owed : List (List Prospect)}
    (hids : (works.map (·.id)).Nodup)
    (howed : List.Forall₂ (fun w ps => w.owedPhases cx = .ok ps) works owed) {w : Rework}
    (hw : w ∈ works) {own : List Prospect} (hown : w.owedPhases cx = .ok own)
    (hadded : w.added = []) (hlive : own ≠ [] → w.IsLive)
    (ht : ∀ p ∈ w.proposals, p.effective.RoundsDown ∧ t < p.effective.floorMillis) :
    Uneventful (own.map (·.timed)) t ⟨works, sortBy Prospect.le owed.flatten, 0⟩
      (Replay.agenda works) w where
  outlook := by rw [Replay.outlook_start hids howed hw hown hadded]
  line := fun op hop hid => by
    obtain ⟨w', hw', hown', hp⟩ := Replay.mem_agenda.1 hop
    obtain rfl := List.inj_on_of_nodup_map hids hw' hw (hown'.symm.trans hid)
    exact ht _ hp
  live := fun ⟨q, hq, _⟩ => by
    rw [Replay.due_start hids howed hw hown] at hq
    exact hlive (List.ne_nil_of_mem hq)

end Uneventful

/-! ## What is laid down by then -/

section Cursors

variable {c : Cursor} {es : List Event} {target : Target}

/-- Entering phases leads a live cursor on to the last of them. -/
theorem Cursor.through_entries {phases : List TimedPhase}
    (hes : es.map (·.timed) = phases.map (·.entry)) {p : TimedPhase}
    (hlast : phases.getLast? = some p) :
    Cursor.through ⟨some target, false⟩ es =
      ⟨some { target with phase := p.phase.name }, false⟩ := by
  have htype : ∀ e ∈ es, e.type ≠ .cancel := fun e he => by
    obtain ⟨q, -, hq⟩ := List.mem_map.1 (hes ▸ List.mem_map_of_mem (f := Event.timed) he)
    rw [show e.type = e.timed.payload.type from rfl, ← hq]
    nofun
  have hpayloads : es.map (·.payload) = (phases.map (·.phase.name)).map .phase := by
    have hmap := congrArg (List.map TimedPayload.payload) hes
    rw [List.map_map, List.map_map] at hmap
    rw [List.map_map]
    exact hmap
  have hcancelled := cancelled_through (c := ⟨some target, false⟩) rfl htype
  have htarget := target_through (c := ⟨some target, false⟩) (fun _ => rfl) hcancelled
  rw [hpayloads, leads_phases, List.getLastD_eq_getLast?, List.getLast?_map, hlast] at htarget
  exact congrArg₂ Cursor.mk htarget hcancelled

end Cursors

namespace Rework

variable {cx : ReplayContext} {w : Rework} {t : Instant} {p : TimedPhase}

theorem lt_of_resumed (hp : p ∈ w.resumed cx) :
    ∃ last, w.lastKept? = some last ∧ last < p.start := by
  unfold resumed at hp
  split at hp
  · cases hp
  · split at hp
    next last _ hlast _ =>
      split at hp
      · exact ⟨last, hlast, of_decide_eq_true (List.mem_filter.1 hp).2⟩
      · cases hp
    · cases hp

/-- All that is kept has come to pass when one of them begins. -/
theorem kept_le_of_resumed (hkept : w.kept.Pairwise Event.Before)
    (hmillis : ∀ e ∈ w.kept, e.effective.floorMillis = e.effective)
    (hdown : ∀ p ∈ w.resumed cx, p.start.RoundsDown) (hp : p ∈ begun (w.resumed cx) t) :
    ∀ e ∈ w.kept, e.effective ≤ t := by
  obtain ⟨hp, hbegun⟩ := List.mem_filter.1 hp
  obtain ⟨last, hlast, hlt⟩ := lt_of_resumed hp
  intro e he
  have hle : e.effective ≤ p.start :=
    Int.le_of_lt (Int.lt_of_le_of_lt (le_lastKept (hkept.imp Event.Before.date_le) hlast e he) hlt)
  exact Int.le_trans ((Instant.le_floorMillis (hmillis e he) (hdown p hp)).2 hle)
    (of_decide_eq_true hbegun)

/-- What has come to pass by an instant before all that is cut off is kept. -/
theorem Prepared.reached_eq (h : w.Prepared) (hcut : ∀ e ∈ w.cut, t < e.effective) :
    reached w.subscription.events t =
      Cursor.start.through (w.kept.filter (·.effective ≤ t)) := by
  have hnone : w.cut.filter (·.effective ≤ t) = [] := List.filter_eq_nil_iff.2 fun e he hle =>
    absurd (hcut e he) (Int.not_lt.2 (of_decide_eq_true hle))
  rw [reached, show effectiveEvents w.subscription.events = w.kept ++ w.cut from h.cut,
    List.filter_append, hnone, List.append_nil]

end Rework

namespace Planned

variable {b : Workbench} {cx : ReplayContext} {repair : Repair} {view : String}
  {works : List Rework} {plan : RepairPlan} {w : Rework} {t : Instant}

/-- Up to an instant before its proposals, nothing is new of a subscription but the phases
resumed. -/
theorem soFar_added (h : Planned b cx repair view works plan)
    (hload : Loaded b.subscriptions cx.ids) (hw : w ∈ works)
    (ht : ∀ p ∈ w.proposals, p.effective.RoundsDown ∧ t < p.effective.floorMillis) :
    (w.added.filter (·.effective.floorMillis ≤ t)).map (·.timed) =
        (begun (w.resumed cx) t).map (·.entry) ∧
      (w.resumed cx ≠ [] → w.bare.IsLive) := by
  have hbare := h.bare_mem hw
  have hids := hload.workIds h.benched
  obtain ⟨owed, howed, hsweep, r, hr, rfl⟩ := h.swept hload
  have hown := Replay.filter_owed howed hids hbare
  have hresumed := Rework.map_timed_owed hown
  have hsettled := hload.settled_kept (h.work_mem hw) (h.work_prepared hw)
  have hlive := Rework.isLive_of_owed (w := w.bare) hsettled.calm hown
  have hend := Uneventful.performAll (fun w' hw' hid => by
    rw [List.inj_on_of_nodup_map hids hw' hbare hid]
    exact Uneventful.start hids howed hbare hown rfl hlive ht) hsweep hr w hw rfl
  refine ⟨?_, fun hne => hlive fun hnil => hne ?_⟩
  · rw [hresumed, soFar_map_entry, soFar, List.filter_map] at hend
    exact hend
  · rw [hnil] at hresumed
    exact List.map_eq_nil_iff.1 hresumed.symm

/-- **Up to an instant before the first edit** a subscription stands after the repair where it
stood, or was live and is on the last of the phases resumed by then. -/
theorem through_events_cases (h : Planned b cx repair view works plan)
    (hload : Loaded b.subscriptions cx.ids) (hw : w ∈ works)
    (hmillis : ∀ e ∈ w.kept, e.effective.floorMillis = e.effective)
    (hresumed : ∀ p ∈ w.resumed cx, p.start.RoundsDown) (hcut : ∀ e ∈ w.cut, t < e.effective)
    (ht : ∀ p ∈ w.proposals, p.effective.RoundsDown ∧ t < p.effective.floorMillis) :
    begun (w.resumed cx) t = [] ∧
        Cursor.start.through (w.events.filter (·.effective.floorMillis ≤ t)) =
          reached w.subscription.events t ∨
      ∃ p target, (begun (w.resumed cx) t).getLast? = some p ∧
        reached w.subscription.events t = ⟨some target, false⟩ ∧
        Cursor.start.through (w.events.filter (·.effective.floorMillis ≤ t)) =
          ⟨some { target with phase := p.phase.name }, false⟩ := by
  have hprep := h.work_prepared hw
  obtain ⟨hadded, hlive⟩ := h.soFar_added hload hw ht
  have hkept : w.kept.filter (·.effective.floorMillis ≤ t) = w.kept.filter (·.effective ≤ t) :=
    List.filter_congr fun e he => by rw [hmillis e he]
  have hthrough : Cursor.start.through (w.events.filter (·.effective.floorMillis ≤ t)) =
      (reached w.subscription.events t).through
        (w.added.filter (·.effective.floorMillis ≤ t)) := by
    rw [hprep.reached_eq hcut, ← Cursor.through_append, ← hkept, ← List.filter_append]
    rfl
  rw [hthrough]
  cases hlast : (begun (w.resumed cx) t).getLast? with
  | none =>
    have hnone := List.getLast?_eq_none_iff.1 hlast
    rw [hnone, List.map_nil, List.map_eq_nil_iff] at hadded
    exact .inl ⟨hnone, by rw [hadded, Cursor.through_nil]⟩
  | some p =>
    have hp := List.mem_of_getLast? hlast
    have hsettled := hload.settled_kept (h.work_mem hw) hprep
    obtain ⟨hactive, hstarted⟩ := hlive (List.ne_nil_of_mem (List.mem_filter.1 hp).1)
    obtain ⟨target, htarget⟩ := Option.isSome_iff_exists.1 hstarted
    have hbefore : reached w.subscription.events t = ⟨some target, false⟩ := by
      rw [hprep.reached_eq hcut, List.filter_eq_self.2 fun e he => decide_eq_true
        (Rework.kept_le_of_resumed hsettled.inOrder hmillis hresumed hp e he), ← Rework.bare_events]
      exact congrArg₂ Cursor.mk htarget hactive
    refine .inr ⟨p, target, rfl, hbefore, ?_⟩
    rw [hbefore]
    exact Cursor.through_entries hadded hlast

end Planned

/-! ## One repair -/

/-- All that the repair deletes of the subscription lies behind `t`, and so does all that it
proposes for it, to the millisecond. -/
structure Repair.SparesUntil (repair : Repair) (sub : Subscription) (t : Instant) : Prop where
  deletes : ∀ e ∈ sub.events, repair.Deletes sub.id e.id → t < e.effective
  proposes : ∀ p ∈ repair.proposalsFor sub.id, t < p.effective.floorMillis

instance (repair : Repair) (i : SubscriptionId) (e : EventId) : Decidable (repair.Deletes i e) :=
  inferInstanceAs (Decidable (∃ x ∈ repair.edits, _ ∧ _))

instance (repair : Repair) (sub : Subscription) (t : Instant) :
    Decidable (repair.SparesUntil sub t) :=
  decidable_of_iff ((∀ e ∈ sub.events, repair.Deletes sub.id e.id → t < e.effective) ∧
      ∀ p ∈ repair.proposalsFor sub.id, t < p.effective.floorMillis)
    ⟨fun h => ⟨h.1, h.2⟩, fun h => ⟨h.deletes, h.proposes⟩⟩

/-- The step is a repair of the subscription, and of the phases that it resumes the last one begun
by `t` is not the phase that the subscription is in. -/
def Step.Displaces (st : Step) (s : Store) (sub : Subscription) (t : Instant) : Prop :=
  ∃ w cx p, st.WorksOn s w cx ∧ w.subscription = sub ∧
    (begun (w.resumed cx) t).getLast? = some p ∧
      (sub.targetAt? t).map (·.phase) ≠ some p.phase.name

namespace Planned

variable {b : Workbench} {cx : ReplayContext} {repair : Repair} {view : String}
  {works : List Rework} {plan : RepairPlan} {w : Rework} {t : Instant}

theorem lt_of_sparesUntil (h : Planned b cx repair view works plan)
    (hload : Loaded b.subscriptions cx.ids) (hw : w ∈ works)
    (hspares : repair.SparesUntil w.subscription t) :
    (∀ e ∈ w.cut, t < e.effective) ∧ ∀ p ∈ w.proposals, t < p.effective.floorMillis := by
  have hprep := h.work_prepared hw
  refine ⟨fun e he => ?_, fun p hp => hspares.proposes p ?_⟩
  · have hmem : e ∈ effectiveEvents w.subscription.events := by
      rw [show effectiveEvents w.subscription.events = w.kept ++ w.cut from hprep.cut]
      exact List.mem_append_right _ he
    exact hspares.deletes e (mem_effectiveEvents.1 hmem).1
      ((h.mem_deleted hload hw).1 (hprep.cutDeleted e he))
  · rw [(h.work_edits hload hw).2.2] at hp
    exact mem_sortBy.1 hp

variable {bundle : Bundle} {benched : List Rework} {s u : Store} {i : BundleId} {r : Replay}

/-- The phases that a repair resumes are dated as those owed. -/
theorem resumed_roundsDown
    (hp : Planned ⟨bundle, s.subscriptionsOf i, benched⟩ cx repair view works plan) (hs : s.Tidy)
    (hbundle : bundle ∈ s.bundles)
    (hcx : cx.bundleStart = Workbench.bundleStart ⟨bundle, s.subscriptionsOf i, benched⟩)
    (hleap : repair.Dated fun t => t.isLeap = false)
    (hload : Loaded (s.subscriptionsOf i) cx.ids) (hw : w ∈ works) :
    ∀ p ∈ w.resumed cx, p.start.RoundsDown := by
  have hbare := hp.bare_mem hw
  obtain ⟨owed, howed, -⟩ := hp.swept hload
  have hown := Replay.filter_owed howed (hload.workIds hp.benched) hbare
  intro p hmem
  have hentry : p.entry ∈ (w.bare.resumed cx).map (·.entry) := List.mem_map_of_mem hmem
  rw [← Rework.map_timed_owed hown] at hentry
  obtain ⟨q, hq, hsame⟩ := List.mem_map.1 hentry
  have hdate : q.date = p.start := (TimedPayload.mk.inj hsame).1
  exact hdate ▸ hp.owed_roundsDown hs hbundle hcx hleap hbare hown q hq

/-- **Read back** up to an instant before the first edit, a repaired subscription stands where it
stood, or was live and is on the last of the phases resumed by then. -/
theorem reached_cases
    (hp : Planned ⟨bundle, s.subscriptionsOf i, benched⟩ cx repair view r.works plan)
    (hs : s.Sound) (hids : Unused cx.ids (·.id) s.events) (hsweep : Sweep cx r [])
    (hrows : Rows s u (Store.reviseAll plan.commit.subscriptions) []
      (s.revised plan.commit.subscriptions))
    (hbundle : bundle ∈ s.bundles)
    (hcx : cx.bundleStart = Workbench.bundleStart ⟨bundle, s.subscriptionsOf i, benched⟩)
    (hleap : repair.Dated fun t => t.isLeap = false) (hw : w ∈ r.works)
    (htouched : w.isTouched = true) (hspares : repair.SparesUntil w.subscription t) :
    ∃ sub, u.subscription? w.id = some sub ∧ (sub.events.map (·.id)).Nodup ∧
      (begun (w.resumed cx) t = [] ∧ reached sub.events t = reached w.subscription.events t ∨
        ∃ p target, (begun (w.resumed cx) t).getLast? = some p ∧
          reached w.subscription.events t = ⟨some target, false⟩ ∧
          reached sub.events t = ⟨some { target with phase := p.phase.name }, false⟩) := by
  have hload : Loaded (s.subscriptionsOf i) cx.ids := hs.loaded i hids
  obtain ⟨q, hq, hvisible, hfound, -⟩ := hp.exists_revised hs hids hsweep hrows hw htouched
  obtain ⟨hcut, hproposals⟩ := hp.lt_of_sparesUntil hload hw hspares
  have hstays := (hsweep.settled w hw).staysInOrder (hp.roundsDown hs.tidy hbundle hcx hleap w hw)
  have hread : reached (u.visible (Store.reviseAll plan.commit.subscriptions q)).events t =
      Cursor.start.through (w.events.filter (·.effective.floorMillis ≤ t)) :=
    Cursor.through_congr (map_payload_filter_of_filed (hp.effectiveEvents_revised hs hids hsweep
      hrows hw htouched hstays hq (congrArg (·.id) hvisible)) t) _
  refine ⟨_, hfound, Store.visible_ids (hrows.tidy hs.tidy) _, ?_⟩
  rw [hread]
  exact hp.through_events_cases hload hw (fun e he => hp.kept_whole hs.tidy hw he)
    (hp.resumed_roundsDown hs.tidy hbundle hcx hleap hload hw) hcut fun p hmem =>
      ⟨hp.proposals_dated hleap.roundsDown w.bare (hp.bare_mem hw) p hmem, hproposals p hmem⟩

end Planned

section Displacing

variable {s : Store} {e : Engine} {context : CallContext} {now : Instant} {b : BundleId}
  {repair : Repair} {bundle : Bundle} {benched works : List Rework} {view : String}
  {plan : RepairPlan} {w : Rework} {sub : Subscription} {t : Instant}
  (hp : Planned ⟨bundle, s.subscriptionsOf b, benched⟩
    (Workbench.replayContext ⟨bundle, s.subscriptionsOf b, benched⟩ e.catalog context now
      (e.supply s).event) repair view works plan)

include hp

theorem Step.displaces_iff (hload : Loaded (s.subscriptionsOf b) (e.supply s).event)
    (hbundle : s.bundle? b = some bundle) (hw : w ∈ works) :
    Step.Displaces ⟨e, context, now, .repair b repair false⟩ s w.subscription t ↔
      ∃ p, (begun (w.resumed (Workbench.replayContext ⟨bundle, s.subscriptionsOf b, benched⟩
          e.catalog context now (e.supply s).event)) t).getLast? = some p ∧
        (w.subscription.targetAt? t).map (·.phase) ≠ some p.phase.name := by
  have hbare := hp.bare_mem hw
  constructor
  · rintro ⟨w', _, p, ⟨_, _, bundle', works', hcall, hfound, hprep, hw', rfl⟩, hsub, hlast, hne⟩
    cases hcall
    obtain rfl : bundle' = bundle := Option.some.inj (hfound.symm.trans hbundle)
    obtain rfl : works' = benched := Except.ok.inj (hprep.symm.trans hp.prepared)
    obtain rfl : w' = w.bare := List.inj_on_of_nodup_map (hload.workIds hp.benched) hw' hbare
      (congrArg (·.id) hsub)
    exact ⟨p, hlast, hne⟩
  · rintro ⟨p, hlast, hne⟩
    exact ⟨w.bare, _, p, ⟨b, repair, bundle, benched, rfl, hbundle, hp.prepared, hbare, rfl⟩, rfl,
      hlast, hne⟩

theorem Step.not_displaces_of_untouched
    (huntouched : ∀ w ∈ works, w.id = sub.id → w.isTouched = false) :
    ¬ Step.Displaces ⟨e, context, now, .repair b repair false⟩ s sub t := by
  rintro ⟨w', _, p, ⟨_, _, bundle', works', hcall, hfound, hprep, hw', rfl⟩, rfl, hlast, -⟩
  cases hcall
  obtain rfl : works' = benched := Except.ok.inj (hprep.symm.trans hp.prepared)
  obtain ⟨w, hw, hbare⟩ := hp.exists_worked hw'
  have htouched := huntouched w hw (congrArg (·.id) hbare)
  have hnone : w'.isTouched = false := (congrArg (·.isTouched) hbare).symm.trans htouched
  rw [Rework.resumed, if_pos (by simp [hnone])] at hlast
  cases hlast

end Displacing

/-- **A repair keeps the past** before its first edit of a subscription, but for the phase: there
the subscription has begun, is cancelled and is on a plan and price list as it was. It is in the
phase that it was in if and only if it is not displaced. Nothing may be proposed for a leap second.
-/
theorem past_kept_unless_displaced {s : Store} (hs : s.Reachable) {st : Step} {b : BundleId}
    {repair : Repair} (hcall : st.call = .repair b repair false) (hdone : st.Succeeds s)
    (hleap : ∀ x ∈ repair.edits, ∀ p ∈ x.proposals, p.effective.isLeap = false)
    {sub : Subscription} (hsub : sub ∈ s.subscriptionsOf b) {t : Instant}
    (hspares : repair.SparesUntil sub t) :
    ∃ sub', (st.after s).subscription? sub.id = some sub' ∧
      sub'.hasBegunAt t = sub.hasBegunAt t ∧ sub'.isCancelledAt t = sub.isCancelledAt t ∧
      (sub'.targetAt? t).map (fun x => (x.plan, x.priceList)) =
        (sub.targetAt? t).map (fun x => (x.plan, x.priceList)) ∧
      (sub'.targetAt? t = sub.targetAt? t ↔ ¬ st.Displaces s sub t) := by
  have hsound := hs.sound
  obtain ⟨e, context, now, call⟩ := st
  obtain rfl : call = .repair b repair false := hcall
  have hwrites := (Step.idle_or_writes hsound _).resolve_left fun hidle => by
    obtain ⟨_, _, hdry⟩ := hidle.dryRun hdone
    cases hdry
  have hwrote := hwrites.wrote
  generalize Step.after ⟨e, context, now, .repair b repair false⟩ s = u at hwrote ⊢
  cases hwrote with
  | repair planned rows _ =>
  obtain ⟨bundle, benched, works, hbundle, hp⟩ := Engine.planStored_eq_ok planned
  have hload := hsound.loaded b (e.supply_fresh s).events
  obtain ⟨r, rfl, hsweep⟩ := hp.sweep hload
  obtain ⟨q, hq, -, rfl⟩ := Store.mem_subscriptionsOf.1 hsub
  by_cases htouched : ∃ w ∈ r.works, w.id = q.id ∧ w.isTouched = true
  · obtain ⟨w, hw, hid, htouched⟩ := htouched
    have hsame : s.visible q = w.subscription :=
      List.inj_on_of_nodup_map hload.ids hsub (hp.work_mem hw) hid.symm
    rw [hsame] at hspares ⊢
    obtain ⟨sub', hfound, -, hcases⟩ :=
      hp.reached_cases hsound (e.supply_fresh s).events hsweep rows
        (List.mem_of_find?_eq_some hbundle) rfl hleap hw htouched hspares
    refine ⟨sub', hfound, ?_⟩
    rw [Step.displaces_iff hp hload hbundle hw, Subscription.hasBegunAt_eq,
      Subscription.hasBegunAt_eq, Subscription.isCancelledAt_eq, Subscription.isCancelledAt_eq,
      sub'.targetAt?_eq_reached t, w.subscription.targetAt?_eq_reached t]
    rcases hcases with ⟨hnone, hafter⟩ | ⟨p, target, hlast, hbefore, hafter⟩
    · simp [hafter, hnone]
    · rw [hafter, hbefore, hlast]
      refine ⟨rfl, rfl, rfl, ?_⟩
      simp only [Bool.false_eq_true, if_false, Option.some.injEq, exists_eq_left', Option.map_some,
        ne_eq, not_not]
      exact ⟨fun hsame => (congrArg Target.phase hsame).symm, fun hname => by rw [← hname]⟩
  · have huntouched : ∀ w ∈ r.works, w.id = q.id → w.isTouched = false := fun w hw hid =>
      Bool.eq_false_iff.2 fun ht => htouched ⟨w, hw, hid, ht⟩
    obtain ⟨hleft, hvisible⟩ := hp.untouched hsweep rows huntouched
    refine ⟨s.visible q, ?_, rfl, rfl, rfl,
      iff_of_true rfl (Step.not_displaces_of_untouched hp huntouched)⟩
    rw [Store.subscription?_eq_some (rows.tidy hsound.tidy), rows.records]
    exact ⟨q, List.mem_append_left _ (List.mem_map.2 ⟨q, hq, hleft⟩), rfl, hvisible⟩

namespace Sample

/-- A base plan imported as of day 0, and an add-on as of day 20, at a discount for a month. -/
def fitted : List Step :=
  [step 0 (.migrate ⟨⟨1⟩, [⟨"key",
    [⟨.base, [⟨"assault-rifle-monthly", .evergreen, "DEFAULT", day 0, none⟩], none⟩,
      ⟨.addOn, [⟨"laser-scope-monthly", .discount, "DEFAULT", day 20, none⟩], none⟩]⟩]⟩)]

/-- A repair that deletes the end of the discount, which lies on day 51. -/
def refit : Repair := ⟨"3-0", [⟨⟨2⟩, [⟨3⟩], []⟩]⟩

def refitted : Step := step 60 (.repair ⟨1⟩ refit false)

end Sample

/-- The catalog lays the discount out from the start of the bundle, so it ends on day 31 now. -/
theorem past_kept_unless_displaced_sample :
    Sample.refitted.Succeeds (Sample.after Sample.fitted) ∧
      ∃ sub ∈ (Sample.after Sample.fitted).subscriptionsOf ⟨1⟩,
        Sample.refit.SparesUntil sub (Sample.day 50) ∧
        ∃ sub', (Sample.refitted.after (Sample.after Sample.fitted)).subscription? sub.id =
            some sub' ∧
          sub'.targetAt? (Sample.day 30) = sub.targetAt? (Sample.day 30) ∧
          ¬ Sample.refitted.Displaces (Sample.after Sample.fitted) sub (Sample.day 30) ∧
          sub.targetAt? (Sample.day 50) =
            some ⟨"laser-scope-monthly", "laser-scope-monthly-discount", "DEFAULT"⟩ ∧
          sub'.targetAt? (Sample.day 50) =
            some ⟨"laser-scope-monthly", "laser-scope-monthly-evergreen", "DEFAULT"⟩ ∧
          Sample.refitted.Displaces (Sample.after Sample.fitted) sub (Sample.day 50) := by
  have hdone : Sample.refitted.Succeeds (Sample.after Sample.fitted) := by
    unfold Step.Succeeds
    decide +kernel
  have hread : ∃ sub ∈ (Sample.after Sample.fitted).subscriptionsOf ⟨1⟩, sub.id = ⟨2⟩ ∧
      Sample.refit.SparesUntil sub (Sample.day 30) ∧ Sample.refit.SparesUntil sub (Sample.day 50) ∧
      [30, 50].map (fun n => sub.targetAt? (Sample.day n)) =
        [some ⟨"laser-scope-monthly", "laser-scope-monthly-discount", "DEFAULT"⟩,
          some ⟨"laser-scope-monthly", "laser-scope-monthly-discount", "DEFAULT"⟩] := by
    decide +kernel
  have hread' : ((Sample.refitted.after (Sample.after Sample.fitted)).subscription? ⟨2⟩).map
      (fun sub => [30, 50].map fun n => sub.targetAt? (Sample.day n)) =
        some [some ⟨"laser-scope-monthly", "laser-scope-monthly-discount", "DEFAULT"⟩,
          some ⟨"laser-scope-monthly", "laser-scope-monthly-evergreen", "DEFAULT"⟩] := by
    decide +kernel
  obtain ⟨sub, hsub, hid, hspares, hspares', hbefore⟩ := hread
  obtain ⟨sub', hfound, hafter⟩ := Option.map_eq_some_iff.1 hread'
  simp only [List.map_cons, List.map_nil, List.cons.injEq, and_true] at hbefore hafter
  have hreach := Sample.reachable_after Sample.fitted
  obtain ⟨_, hfound30, -, -, -, hkept⟩ := past_kept_unless_displaced hreach rfl hdone
    (by decide) hsub hspares
  obtain ⟨_, hfound50, -, -, -, hmoved⟩ := past_kept_unless_displaced hreach rfl hdone
    (by decide) hsub hspares'
  rw [hid, hfound, Option.some_inj] at hfound30 hfound50
  subst hfound30 hfound50
  refine ⟨hdone, sub, hsub, hspares', sub', hid ▸ hfound, hafter.1.trans hbefore.1.symm,
    hkept.1 (hafter.1.trans hbefore.1.symm), hbefore.2, hafter.2, ?_⟩
  by_contra hstays
  have hsame := hmoved.2 hstays
  rw [hbefore.2, hafter.2] at hsame
  revert hsame
  decide

end Tenure
