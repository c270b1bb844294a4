import Tenure.Proofs.Finishing
import Tenure.Proofs.Positions

/-!
# The sequel of a proposal

A repair that makes one proposal for a subscription writes three things behind what is kept: the
phases owed up to the date of the proposal, the event that carries it out, and the phases of its
schedule (`Planned.sequel`).

What the sweep leaves as it is, as long as it only enters phases, is the outlook of the
subscription: its new events so far with the phases in prospect behind them (`Replay.outlook`). The
proposal takes the place of all that is in prospect at its date.
-/

namespace Tenure

/-- What the event of a phase in prospect will say. -/
def Prospect.timed (p : Prospect) : TimedPayload := ⟨p.date, .phase p.phase⟩

theorem Prospect.map_timed_ofSchedule {i : SubscriptionId} {plan : Plan} {s : Schedule}
    {date : Instant} (h : s.SeenAt plan date) :
    (ofSchedule i s date).map (·.timed) =
      s.upcoming.map fun p => ⟨p.start, .phase p.phase.name⟩ := by
  rw [ofSchedule, List.filter_eq_self.2 fun p hp => decide_eq_true (h.ahead p hp), List.map_map]
  rfl

namespace Rework

variable {cx : ReplayContext} {w : Rework} {e : Event} {date : Instant} {t : Target}

theorem bare_events (w : Rework) : w.bare.events = w.kept := List.append_nil _

/-- The subscription is on a plan behind all its events. -/
def IsLive (w : Rework) : Prop := w.cursor.cancelled = false ∧ w.cursor.target.isSome = true

theorem IsLive.liveAt?_isSome (h : w.IsLive) (hcalm : Calm w.events)
    (hdate : ∀ e ∈ w.events, e.effective ≤ date) : (w.liveAt? date).isSome = true := by
  obtain ⟨t, ht⟩ := Option.isSome_iff_exists.1 h.2
  exact Rework.liveAt?_isSome hcalm hdate h.1 ht

theorem cursor_of_liveAt? (hcalm : Calm w.events) (hdate : ∀ e ∈ w.events, e.effective ≤ date)
    (h : (w.liveAt? date).bind (·.target?) = some t) : w.cursor = ⟨some t, false⟩ := by
  rw [target?_liveAt? hcalm hdate] at h
  obtain ⟨hlive, htarget⟩ := Option.ite_none_left_eq_some.1 h
  exact congrArg₂ Cursor.mk htarget (Bool.eq_false_iff.2 hlive)

/-- A start brings it onto a plan, and nothing but a cancellation takes it off again. -/
theorem isLive_adding (htype : e.type ≠ .cancel)
    (h : e.type.startsSubscription = true ∨ w.IsLive) : (w.adding e).IsLive := by
  rw [IsLive, cursor_adding]
  rcases h with hstart | ⟨hlive, hstarted⟩
  · rw [after_of_starts hstart w.cursor none]
    refine ⟨rfl, ?_⟩
    unfold Event.type at hstart
    cases hp : e.payload <;> rw [hp] at hstart <;> first | rfl | cases hstart
  · obtain ⟨t, ht⟩ := Option.isSome_iff_exists.1 hstarted
    rw [after_of_active hlive ht, if_neg htype]
    exact ⟨rfl, by cases e.payload <;> rfl⟩

theorem Carried.isLive {p : Proposal} {payload : Payload} {prospects : List Prospect}
    (h : w.Carried cx p payload prospects) (htype : p.type ≠ .cancel)
    (hheld : ∀ t, (w.liveAt? p.effective).bind (·.target?) = some t → w.cursor = ⟨some t, false⟩) :
    payload.type ≠ .cancel ∧ (payload.type.startsSubscription = true ∨ w.IsLive) := by
  cases h with
  | creation => split <;> exact ⟨nofun, .inl rfl⟩
  | change _ live =>
    refine ⟨nofun, .inr ?_⟩
    rw [IsLive, hheld _ live]
    exact ⟨rfl, rfl⟩
  | cancel type => exact (htype type).elim

end Rework

namespace Replay

variable {cx : ReplayContext} {r : Replay} {ops : List Operation} {w w' : Rework} {q : Prospect}
  {ps : List Prospect}

/-- The new events of a subscription so far, and the phases in prospect behind them. -/
def outlook (r : Replay) (w : Rework) : List TimedPayload :=
  w.added.map (·.timed) ++ (r.due w.id).map (·.timed)

/-- What entering the first phase in prospect makes of a subscription: the phase goes behind its
events if it is the subscription's own, or is dropped if the subscription is not live. -/
inductive Entered (cx : ReplayContext) (r : Replay) (q : Prospect) (ps : List Prospect)
    (w' : Rework) : Prop
  | other (mem : w' ∈ r.works) (ne : w'.id ≠ q.subscription)
      (outlook : (enter cx { r with prospects := ps } q).outlook w' = r.outlook w')
  | own {w : Rework} (mem : w ∈ r.works) (id : w.id = q.subscription)
      (eq : w' = w.adding (next cx r q.subscription q.date (.phase q.phase)))
      (outlook : (enter cx { r with prospects := ps } q).outlook w' = r.outlook w)
  | dropped (mem : w' ∈ r.works) (id : w'.id = q.subscription) (notLive : ¬ w'.IsLive)
      {rest : List TimedPayload}
      (before : r.outlook w' = w'.added.map (·.timed) ++ q.timed :: rest)
      (outlook : (enter cx { r with prospects := ps } q).outlook w' =
        w'.added.map (·.timed) ++ rest)

theorem entered (hsweep : Sweep cx r ops) (hfront : r.prospects = q :: ps)
    (hw' : w' ∈ (enter cx { r with prospects := ps } q).works) : Entered cx r q ps w' := by
  have hother {w : Rework} {r' : Replay} (hne : w.id ≠ q.subscription) (hps : r'.prospects = ps) :
      r'.outlook w = r.outlook w := by
    rw [outlook, outlook, due_of_front hfront, if_neg (Ne.symm hne), due, due, hps]
  cases hst : (work? { r with prospects := ps } q.subscription).bind (·.liveAt? q.date) with
  | some st =>
    have henter : enter cx { r with prospects := ps } q =
        record cx { r with prospects := ps } q.subscription q.date (.phase q.phase) := by
      rw [enter, hst]
    rw [henter] at hw'
    rcases mem_record_works.1 hw' with ⟨hw, hne⟩ | ⟨w, hw, hid, rfl⟩
    · exact .other hw hne (hother hne (by rw [henter]; rfl))
    · refine .own hw hid rfl ?_
      rw [henter, outlook, outlook, due_of_front hfront, if_pos hid.symm, Rework.adding_added,
        List.map_append, List.append_assoc]
      rfl
  | none =>
    have henter : enter cx { r with prospects := ps } q = { r with prospects := ps } := by
      rw [enter, hst]
    rw [henter] at hw'
    by_cases hid : w'.id = q.subscription
    · have hbefore : r.outlook w' = w'.added.map (·.timed) ++
          q.timed :: (due { r with prospects := ps } w'.id).map (·.timed) := by
        rw [outlook, due_of_front hfront, if_pos hid.symm]
        rfl
      refine .dropped hw' hid (fun hlive => ?_) hbefore (by rw [henter]; rfl)
      -- A live subscription would have been found on a plan.
      have hdate : ∀ e ∈ w'.events, e.effective ≤ q.date :=
        fun e he => (hsweep.inLine w' hw' e he).1 q (by simp [hfront]) hid.symm
      have hfound := hlive.liveAt?_isSome (hsweep.settled w' hw').calm hdate
      have hwork : work? { r with prospects := ps } q.subscription = some w' :=
        hid ▸ find?_of_nodup hsweep.ids hw'
      rw [hwork, Option.bind_some] at hst
      rw [hst] at hfound
      cases hfound
    · exact .other hw' hid (hother hid (by rw [henter]))

section Carried

variable {op : Operation} {w₀ : Rework} {payload : Payload} {prospects : List Prospect}
  (hw₀ : r.work? op.subscription = some w₀) (hout : w₀.Carried cx op.proposal payload prospects)

include hw₀ hout

/-- A proposal that is carried out puts the phases of its schedule in prospect for its subscription
and leaves those of the others. -/
theorem due_carried_self : ((r.record cx op.subscription op.proposal.effective payload)
    |>.replaceProspects op.subscription prospects).due op.subscription = prospects :=
  due_replaceProspects_self (fun q hq => (hout.prospect q hq).1.trans (Sweep.work?_mem hw₀).2)
    hout.pairwise_prospects

theorem due_carried_other (hdates : r.prospects.Pairwise (fun a b => a.date ≤ b.date))
    (hne : w.id ≠ op.subscription) :
    ((r.record cx op.subscription op.proposal.effective payload).replaceProspects
      op.subscription prospects).due w.id = r.due w.id :=
  due_replaceProspects_other hne
    (fun q hq => (hout.prospect q hq).1.trans (Sweep.work?_mem hw₀).2) hdates

theorem outlook_carried_self (hid : w.id = op.subscription) :
    ((r.record cx op.subscription op.proposal.effective payload).replaceProspects
        op.subscription prospects).outlook
        (w.adding (next cx r op.subscription op.proposal.effective payload)) =
      w.added.map (·.timed) ++ ⟨op.proposal.effective, payload⟩ :: prospects.map (·.timed) := by
  rw [outlook, Rework.adding_id, hid, due_carried_self hw₀ hout, Rework.adding_added,
    List.map_append, List.append_assoc]
  rfl

theorem outlook_carried_other (hsweep : Sweep cx r ops) (hne : w.id ≠ op.subscription) :
    ((r.record cx op.subscription op.proposal.effective payload).replaceProspects
      op.subscription prospects).outlook w = r.outlook w := by
  rw [outlook, due_carried_other hw₀ hout hsweep.prospects hne, outlook]

end Carried

end Replay

/-- What lies no later than the first prospect lies no later than any. -/
theorem Replay.le_due {r : Replay} {i : SubscriptionId} {date : Instant}
    (hdates : r.prospects.Pairwise (fun a b => a.date ≤ b.date))
    (hnext : ∀ q ∈ r.prospects.head?, date ≤ q.date) : ∀ q ∈ r.due i, date ≤ q.date :=
  fun q hq => forall_of_head? hdates (fun _ _ hle h => Int.le_trans h hle) hnext q
    (List.mem_filter.1 hq).1

/-! ## The invariant -/

/-- The proposal was carried out on `before`, when the phases owed for before its date had been
entered, and had this for a result. -/
structure CarriedOut (cx : ReplayContext) (p : Proposal) (owed : List Prospect) (w before : Rework)
    (payload : Payload) (prospects : List Prospect) : Prop where
  bare : before.bare = w.bare
  entered : before.added.map (·.timed) = (owed.filter (·.date < p.effective)).map (·.timed)
  held : ∀ t, (before.liveAt? p.effective).bind (·.target?) = some t →
    before.cursor = ⟨some t, false⟩
  carried : before.Carried cx p payload prospects

/-- What becomes of a subscription with one proposal `p` and some phases owed. Until the proposal is
carried out its outlook is those phases. From then on it is the ones that were entered before, the
event that carries the proposal out, and the phases in prospect with it. -/
inductive Sequel (cx : ReplayContext) (p : Proposal) (owed : List Prospect) (r : Replay)
    (ops : List Operation) (w : Rework) : Prop
  | ahead (line : ops.filter (·.subscription == w.id) = [⟨w.id, p⟩])
      (outlook : r.outlook w = owed.map (·.timed))
      (live : owed ≠ [] → w.IsLive)
      (entered : ∀ e ∈ w.added, e.effective < p.effective)
  | behind (line : ops.filter (·.subscription == w.id) = []) (live : w.IsLive)
      {before : Rework} {payload : Payload} {prospects : List Prospect}
      (out : CarriedOut cx p owed w before payload prospects)
      (outlook : r.outlook w =
        before.added.map (·.timed) ++ ⟨p.effective, payload⟩ :: prospects.map (·.timed))

namespace Sequel

variable {cx : ReplayContext} {p : Proposal} {owed : List Prospect} {r : Replay}
  {ops : List Operation} {w : Rework} {i : SubscriptionId}

/-- What was entered before the date is what was owed for before it. -/
theorem entered_of_outlook (houtlook : r.outlook w = owed.map (·.timed)) {date : Instant}
    (hadded : ∀ e ∈ w.added, e.effective < date) (hdue : ∀ q ∈ r.due w.id, date ≤ q.date) :
    w.added.map (·.timed) = (owed.filter (·.date < date)).map (·.timed) := by
  have hfilter : (owed.filter (·.date < date)).map (·.timed) =
      (owed.map (·.timed)).filter (·.effective < date) := by
    rw [List.filter_map]
    rfl
  rw [hfilter, ← houtlook, Replay.outlook, List.filter_append, List.filter_eq_self.2 fun e he => ?_,
    List.filter_eq_nil_iff.2 fun q hq => ?_, List.append_nil]
  · obtain ⟨q, hmem, rfl⟩ := List.mem_map.1 hq
    exact fun hlt => absurd (of_decide_eq_true hlt) (Int.not_lt.2 (hdue q hmem))
  · obtain ⟨e, hmem, rfl⟩ := List.mem_map.1 he
    exact decide_eq_true (hadded e hmem)

theorem enter {q : Prospect} {ps : List Prospect}
    (h : ∀ w ∈ r.works, w.id = i → Sequel cx p owed r ops w) (hsweep : Sweep cx r ops)
    (hfront : r.prospects = q :: ps)
    (hnext : ∀ op ∈ ops.head?, q.date < op.proposal.effective) :
    ∀ w ∈ (Replay.enter cx { r with prospects := ps } q).works, w.id = i →
      Sequel cx p owed (Replay.enter cx { r with prospects := ps } q) ops w := by
  intro w' hw' hi
  have hlive {w : Rework} (hw : w ∈ r.works) (hi : w.id = i) (hq : w.id = q.subscription) :
      w.IsLive := by
    cases h w hw hi with
    | ahead _ houtlook hlive _ =>
      refine hlive fun hnil => ?_
      rw [hnil, Replay.outlook, Replay.due_of_front hfront, if_pos hq.symm] at houtlook
      simp at houtlook
    | behind _ hlive => exact hlive
  cases Replay.entered hsweep hfront hw' with
  | dropped hw hid hnot => exact (hnot (hlive hw hi hid)).elim
  | other hw _ houtlook =>
    cases h w' hw hi with
    | ahead line outlook live entered => exact .ahead line (houtlook.trans outlook) live entered
    | behind line live out outlook => exact .behind line live out (houtlook.trans outlook)
  | @own w hw hid heq houtlook =>
    subst heq
    have hgoes : (w.adding (Replay.next cx r q.subscription q.date (.phase q.phase))).IsLive :=
      Rework.isLive_adding nofun (.inr (hlive hw hi hid))
    cases h w hw hi with
    | ahead line outlook live entered =>
      refine .ahead line (houtlook.trans outlook) (fun _ => hgoes) fun e he => ?_
      rcases List.mem_append.1 he with he | he
      · exact entered e he
      · rw [List.mem_singleton.1 he]
        exact hsweep.lt_of_next hnext ⟨w.id, p⟩
          (List.mem_filter.1 (line ▸ List.mem_singleton_self _)).1
    | behind line live out outlook =>
      exact .behind line hgoes { out with } (houtlook.trans outlook)

theorem perform {op : Operation} {w₀ : Rework} {payload : Payload} {prospects : List Prospect}
    (h : ∀ w ∈ r.works, w.id = i → Sequel cx p owed r (op :: ops) w)
    (hsweep : Sweep cx r (op :: ops)) (htype : p.type ≠ .cancel)
    (hnext : ∀ q ∈ r.prospects.head?, op.proposal.effective ≤ q.date)
    (hw₀ : r.work? op.subscription = some w₀) (hout : w₀.Carried cx op.proposal payload prospects) :
    ∀ w ∈ ((r.record cx op.subscription op.proposal.effective payload).replaceProspects
        op.subscription prospects).works, w.id = i →
      Sequel cx p owed ((r.record cx op.subscription op.proposal.effective payload).replaceProspects
        op.subscription prospects) ops w := by
  intro w' hw' hi
  rcases Replay.mem_record_works.1 hw' with ⟨hw, hne⟩ | ⟨w, hw, hid, rfl⟩
  · -- The proposal is for another subscription.
    have houtlook := Replay.outlook_carried_other hw₀ hout hsweep hne
    have hline : (op :: ops).filter (·.subscription == w'.id) =
        ops.filter (·.subscription == w'.id) :=
      List.filter_cons_of_neg (by simpa using Ne.symm hne)
    cases h w' hw hi with
    | ahead line outlook live entered =>
      exact .ahead (hline ▸ line) (houtlook.trans outlook) live entered
    | behind line live out outlook =>
      exact .behind (hline ▸ line) live out (houtlook.trans outlook)
  · have hline : (op :: ops).filter (·.subscription == w.id) =
        op :: ops.filter (·.subscription == w.id) :=
      List.filter_cons_of_pos (by simpa using hid.symm)
    obtain rfl : w = w₀ :=
      Option.some.inj ((find?_of_nodup hsweep.ids hw).symm.trans (hid ▸ hw₀))
    cases h w hw hi with
    | behind line => simp [hline] at line
    | ahead line outlook live entered =>
      obtain ⟨rfl, hnone⟩ := List.cons.inj (hline.symm.trans line)
      have hheld (t : Target) (ht : (w.liveAt? p.effective).bind (·.target?) = some t) :
          w.cursor = ⟨some t, false⟩ :=
        Rework.cursor_of_liveAt? (hsweep.settled w hw).calm
          (fun e he => (hsweep.inLine w hw e he).2 _ (List.mem_cons_self ..) rfl) ht
      obtain ⟨hgoes, hlive⟩ := hout.isLive htype hheld
      have hentered := entered_of_outlook outlook entered (Replay.le_due hsweep.prospects hnext)
      have hcarried : CarriedOut cx p owed w w payload prospects := ⟨rfl, hentered, hheld, hout⟩
      exact .behind hnone (Rework.isLive_adding hgoes hlive) { hcarried with }
        (Replay.outlook_carried_self hw₀ hout rfl)

theorem skip {op : Operation} (h : ∀ w ∈ r.works, w.id = i → Sequel cx p owed r (op :: ops) w)
    (hw : r.work? op.subscription = none) :
    ∀ w ∈ r.works, w.id = i → Sequel cx p owed r ops w := by
  intro w hmem hi
  have hne : ¬ op.subscription = w.id := fun hid => by
    have hunknown := List.find?_eq_none.1 hw w hmem
    simp [hid] at hunknown
  have hline : (op :: ops).filter (·.subscription == w.id) = ops.filter (·.subscription == w.id) :=
    List.filter_cons_of_neg (by simpa using hne)
  cases h w hmem hi with
  | ahead line outlook live entered => exact .ahead (hline ▸ line) outlook live entered
  | behind line live out outlook => exact .behind (hline ▸ line) live out outlook

theorem performAll {r' : Replay} (h : ∀ w ∈ r.works, w.id = i → Sequel cx p owed r ops w)
    (hsweep : Sweep cx r ops) (htype : p.type ≠ .cancel) (hr : r.performAll cx ops = .ok r') :
    ∀ w ∈ r'.works, w.id = i → ∃ before payload prospects,
      CarriedOut cx p owed w before payload prospects ∧ w.added.map (·.timed) =
        before.added.map (·.timed) ++ ⟨p.effective, payload⟩ :: prospects.map (·.timed) := by
  obtain ⟨⟨-, hend⟩, hnone⟩ := Replay.performAll_induct
    (P := fun r ops => Sweep cx r ops ∧ ∀ w ∈ r.works, w.id = i → Sequel cx p owed r ops w)
    (fun _ _ _ _ hfront hnext ⟨hs, h⟩ => ⟨hs.enter hfront hnext, enter h hs hfront hnext⟩)
    (fun _ _ _ _ _ _ hnext hw hout ⟨hs, h⟩ => ⟨hs.perform hw (Rework.carried_of_eq_ok hout),
      perform h hs htype hnext hw (Rework.carried_of_eq_ok hout)⟩)
    (fun _ _ _ hw ⟨hs, h⟩ => ⟨hs.skip, skip h hw⟩) hr ⟨hsweep, h⟩
  intro w hw hi
  cases hend w hw hi with
  | ahead line => simp at line
  | behind _ _ out outlook =>
    refine ⟨_, _, _, out, ?_⟩
    rwa [Replay.outlook, Replay.due, hnone, List.filter_nil, List.map_nil, List.append_nil]
      at outlook

end Sequel

/-! ## One proposal -/

/-- All that is proposed for a subscription. -/
def Repair.proposalsFor (repair : Repair) (i : SubscriptionId) : List Proposal :=
  (repair.edits.filter (·.subscription == i)).flatMap (·.proposals)

/-- A subscription with one proposal is worked out with it. -/
theorem Planned.exists_work_of_proposal {b : Workbench} {cx : ReplayContext} {repair : Repair}
    {view : String} {works : List Rework} {plan : RepairPlan}
    (h : Planned b cx repair view works plan) (hload : Loaded b.subscriptions cx.ids)
    {sub : Subscription} (hsub : sub ∈ b.subscriptions) {p : Proposal}
    (hp : repair.proposalsFor sub.id = [p]) :
    ∃ w ∈ works, w.subscription = sub ∧ w.proposals = [p] := by
  obtain ⟨x, hx, hid⟩ : ∃ x ∈ repair.edits, x.subscription = sub.id := by
    obtain ⟨x, hx, -⟩ := List.mem_flatMap.1
      (hp ▸ List.mem_singleton_self _ : p ∈ repair.proposalsFor sub.id)
    exact ⟨x, (List.mem_filter.1 hx).1, eq_of_beq (List.mem_filter.1 hx).2⟩
  obtain ⟨w, hw, hwid⟩ := h.exists_work hload hx
  refine ⟨w, hw, List.inj_on_of_nodup_map hload.ids (h.work_mem hw) hsub (hwid.trans hid), ?_⟩
  rw [(h.work_edits hload hw).2.2, show w.id = sub.id from hwid.trans hid]
  exact congrArg (sortBy Proposal.dateLe) hp

/-! ## The start of the sweep -/

theorem Replay.filter_agenda {works : List Rework} (hids : (works.map (·.id)).Nodup) {w : Rework}
    (hw : w ∈ works) (hdate : w.proposals.Pairwise (fun a b => a.effective ≤ b.effective)) :
    (agenda works).filter (·.subscription == w.id) = w.proposals.map (⟨w.id, ·⟩) := by
  have hown := filter_key_flatMap (f := fun w : Rework => w.proposals.map fun p => ⟨w.id, p⟩)
    (o := Operation.subscription) hids (fun w _ op hop => by
      obtain ⟨_, -, rfl⟩ := List.mem_map.1 hop
      rfl) hw
  rw [agenda, filter_sortBy Operation.le_total Operation.le_trans, hown]
  refine sortBy_of_pairwise (List.pairwise_map.2 (hdate.imp fun {a b} hle => ?_))
  rw [Instant.le_def] at hle
  simp only [Operation.le, Bool.or_eq_true, Bool.and_eq_true, decide_eq_true_eq, beq_iff_eq,
    Instant.lt_def, Instant.ext_iff]
  omega

theorem Rework.pairwise_owedPhases {cx : ReplayContext} {w : Rework} {owed : List Prospect}
    (h : w.owedPhases cx = .ok owed) : owed.Pairwise (fun a b => a.date ≤ b.date) := by
  unfold owedPhases at h
  split at h
  · cases h
    exact .nil
  · split at h
    · split at h
      · cases h
        exact .nil
      · obtain ⟨schedule, halign, rfl⟩ := map_eq_ok.1 h
        cases schedule with
        | none => exact .nil
        | some schedule =>
          obtain ⟨_, _, -, -, hseen⟩ := Catalog.alignTransition_seenAt halign
          exact Prospect.pairwise_ofSchedule hseen _
    · cases h
      exact .nil

theorem Rework.isLive_of_owed {cx : ReplayContext} {w : Rework} {owed : List Prospect}
    (hcalm : Calm w.kept) (h : w.owedPhases cx = .ok owed) (hne : owed ≠ []) :
    w.bare.IsLive := by
  unfold owedPhases at h
  split at h
  · cases h
    exact (hne rfl).elim
  · split at h
    next date t hdate ht =>
      split at h
      · cases h
        exact (hne rfl).elim
      next hactive =>
        rw [transitions, hcalm.effectiveEvents_eq] at ht
        obtain ⟨target, -, hcursor⟩ := Cursor.through_of_getLast? ht hactive
        rw [IsLive, cursor, bare_events, hcursor]
        exact ⟨rfl, rfl⟩
    · cases h
      exact (hne rfl).elim

section Start

variable {cx : ReplayContext} {works : List Rework} {owed : List (List Prospect)}
  (hids : (works.map (·.id)).Nodup)
  (howed : List.Forall₂ (fun w ps => w.owedPhases cx = .ok ps) works owed) {w : Rework}
  (hw : w ∈ works) {own : List Prospect} (hown : w.owedPhases cx = .ok own)

include hids howed hw hown

theorem Replay.due_start : due ⟨works, sortBy Prospect.le owed.flatten, 0⟩ w.id = own := by
  have hfilter := Except.ok.inj ((filter_owed howed hids hw).symm.trans hown)
  rw [due, filter_sortBy Prospect.le_total Prospect.le_trans, hfilter,
    Prospect.sortBy_le_of_own (fun p hp => (Rework.owedPhases_behind hown p hp).1)
      (Rework.pairwise_owedPhases hown)]

theorem Replay.outlook_start (hadded : w.added = []) :
    outlook ⟨works, sortBy Prospect.le owed.flatten, 0⟩ w = own.map (·.timed) := by
  rw [outlook, hadded, due_start hids howed hw hown]
  rfl

theorem Sequel.start (hadded : w.added = []) {p : Proposal} (hp : w.proposals = [p])
    (hlive : own ≠ [] → w.IsLive) :
    Sequel cx p own ⟨works, sortBy Prospect.le owed.flatten, 0⟩ (Replay.agenda works) w :=
  .ahead (by rw [Replay.filter_agenda hids hw (by simp [hp]), hp, List.map_singleton])
    (Replay.outlook_start hids howed hw hown hadded) hlive (by simp [hadded])

end Start

/-- **The sequel.** Behind what a repair keeps of a subscription stand the phases owed for before
the date of its one proposal, what the proposal comes to there, and the phases that follow from
it. -/
theorem Planned.sequel {b : Workbench} {cx : ReplayContext} {repair : Repair} {view : String}
    {works : List Rework} {plan : RepairPlan} (h : Planned b cx repair view works plan)
    (hload : Loaded b.subscriptions cx.ids) {w : Rework} (hw : w ∈ works) {p : Proposal}
    (hp : w.proposals = [p]) (htype : p.type ≠ .cancel) :
    ∃ owed before payload prospects, w.owedPhases cx = .ok owed ∧
      CarriedOut cx p owed w before payload prospects ∧ w.added.map (·.timed) =
        before.added.map (·.timed) ++ ⟨p.effective, payload⟩ :: prospects.map (·.timed) := by
  have hbare := h.bare_mem hw
  have hids := hload.workIds h.benched
  obtain ⟨owed, howed, hsweep, r, hr, rfl⟩ := h.swept hload
  have hown := Replay.filter_owed howed hids hbare
  have hsettled := hload.settled_kept (h.work_mem hw) (h.work_prepared hw)
  have hstart := Sequel.start hids howed hbare hown rfl hp
    (Rework.isLive_of_owed (w := w.bare) hsettled.calm hown)
  obtain ⟨before, payload, prospects, hbefore⟩ := Sequel.performAll (fun w' hw' hid => by
    rwa [List.inj_on_of_nodup_map hids hw' hbare hid]) hsweep htype hr w hw rfl
  exact ⟨_, before, payload, prospects, hown, hbefore⟩

end Tenure
