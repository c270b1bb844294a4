import Tenure.Proofs.DryRun
import Tenure.Proofs.Positions
import Tenure.Proofs.TermSteps

/-!
# What a plan change leaves

While plans are only set and changed, every event of a store moves its subscription on
(`Store.Ongoing`), and a subscription stands where the script of its effective events has led
(`Store.Ongoing.targetAt?_eq`).

A change is recorded behind all other events, so it takes the effect of what lies behind its date,
and of nothing else (`effectiveEvents_append_change`). The script that it leaves is the one so far
up to its date, then the change with the phases of the new plan (`Engine.targetAt?_changed`).
-/

namespace Tenure

/-! ## Scripts -/

/-- The position at `t` by a script, whose dates are rounded down to milliseconds in storage. -/
def scriptAt (xs : List TimedPayload) (t : Instant) : Option Target :=
  leads none ((xs.filter (·.effective.floorMillis ≤ t)).map (·.payload))

/-- The entry of a phase in a script. -/
def TimedPhase.entry (p : TimedPhase) : TimedPayload := ⟨p.start, .phase p.phase.name⟩

/-- The script of a change, with the phases that follow. -/
def changeScript (date : Instant) (target : Target) (phases : List TimedPhase) :
    List TimedPayload :=
  ⟨date, .change target⟩ :: phases.map (·.entry)

section Scripts

variable {xs ys : List TimedPayload} {d t : Instant}

theorem scriptAt_append (xs ys : List TimedPayload) (t : Instant) : scriptAt (xs ++ ys) t =
    leads (scriptAt xs t) ((ys.filter (·.effective.floorMillis ≤ t)).map (·.payload)) := by
  rw [scriptAt, List.filter_append, List.map_append, leads_append]
  rfl

theorem scriptAt_map_timed (es : List Event) (t : Instant) : scriptAt (es.map (·.timed)) t =
    leads none ((es.filter (·.effective.floorMillis ≤ t)).map (·.payload)) := by
  rw [scriptAt, List.filter_map, List.map_map]
  rfl

/-- Up to a date, all that a script says from there on goes unnoticed. -/
theorem scriptAt_append_of_lt (hys : ∀ y ∈ ys, d ≤ y.effective) (hd : d.floorMillis = d)
    (ht : t < d) : scriptAt (xs ++ ys) t = scriptAt xs t := by
  rw [scriptAt_append, List.filter_eq_nil_iff.2 fun y hy hle => ?_]
  · rfl
  · have hbegun : d ≤ y.effective.floorMillis :=
      hd ▸ Instant.floorMillis_mono (Instant.roundsDown_of_floorMillis hd) (hys y hy)
    exact absurd ht (Int.not_lt.2 (Int.le_trans hbegun (of_decide_eq_true hle)))

theorem scriptAt_eq_leads (hdown : ∀ x ∈ xs, x.effective.RoundsDown)
    (hxs : ∀ x ∈ xs, x.effective ≤ t) : scriptAt xs t = leads none (xs.map (·.payload)) := by
  have hall : xs.filter (·.effective.floorMillis ≤ t) = xs := List.filter_eq_self.2 fun x hx =>
    decide_eq_true (Int.le_trans (hdown x hx) (hxs x hx))
  rw [scriptAt, hall]

theorem scriptAt_of_le (hdown : ∀ x ∈ xs, x.effective.RoundsDown)
    (hxs : ∀ x ∈ xs, x.effective ≤ d) (ht : d ≤ t) : scriptAt xs t = scriptAt xs d := by
  rw [scriptAt_eq_leads hdown hxs,
    scriptAt_eq_leads hdown fun x hx => Int.le_trans (hxs x hx) ht]

theorem scriptAt_append_phases {target : Target} (htarget : scriptAt xs t = some target)
    (phases : List TimedPhase) : scriptAt (xs ++ phases.map (·.entry)) t =
      some { target with
        phase := ((phases.filter (·.start.floorMillis ≤ t)).map (·.phase.name)).getLastD
          target.phase } := by
  rw [scriptAt_append, htarget, ← leads_phases, List.filter_map, List.map_map, List.map_map]
  rfl

/-- From the date of a change on it alone counts, if there is anything to change. -/
theorem scriptAt_append_change {target : Target} {phases : List TimedPhase}
    (hcurrent : (scriptAt xs t).isSome = true) (hd : d.floorMillis = d) (ht : d ≤ t) :
    scriptAt (xs ++ changeScript d target phases) t =
      some { target with
        phase := ((phases.filter (·.start.floorMillis ≤ t)).map (·.phase.name)).getLastD
          target.phase } := by
  obtain ⟨current, hcurrent⟩ := Option.isSome_iff_exists.1 hcurrent
  have hchange : scriptAt (xs ++ [⟨d, .change target⟩]) t = some target := by
    rw [scriptAt_append, hcurrent, List.filter_cons_of_pos (by simpa [hd] using ht)]
    rfl
  rw [changeScript, List.append_cons]
  exact scriptAt_append_phases hchange phases

end Scripts

/-! ## Histories with a change behind -/

/-- A change recorded behind all other events takes the effect of those that lie behind its date. -/
theorem effectiveEvents_append_change {es fs : List Event} {c : Event}
    (hids : ((es ++ c :: fs).map (·.id)).Nodup)
    (hrise : (es ++ c :: fs).Pairwise (fun a b => a.ordering < b.ordering))
    (hdate : (c :: fs).Pairwise (fun a b => a.effective ≤ b.effective))
    (hmoves : ∀ e ∈ es, e.isMove = true)
    (hstarts : ∀ e ∈ es, e.type.startsSubscription = true → e.effective ≤ c.effective)
    (hc : c.type = .change) (hfs : ∀ f ∈ fs, f.type = .phase) :
    effectiveEvents (es ++ c :: fs) =
      (effectiveEvents es).filter (·.effective ≤ c.effective) ++ c :: fs := by
  obtain ⟨hfront, hback, hbehind⟩ := List.pairwise_append.1 hrise
  have hsettled : Settled (c :: fs) := .of_ascending hback hdate
    (List.forall_mem_cons.2 ⟨by simp [hc], fun f hf => by simp [hfs f hf]⟩)
  have hfrontIds : (es.map (·.id)).Nodup := hids.sublist ((List.sublist_append_left ..).map _)
  -- Of all that is appended only the change takes effect from anything.
  have hkept {e x : Event} (he : e.effective ≤ c.effective) (hx : x ∈ c :: fs) :
      ¬ e.isSupersededBy x = true := by
    intro hlost
    rcases List.mem_cons.1 hx with rfl | hx
    · obtain ⟨-, ⟨-, -, hlt⟩ | ⟨-, huncancel, -⟩⟩ := Event.isSupersededBy_iff.1 hlost
      · exact absurd hlt (Int.not_lt.2 he)
      · simp [hc] at huncancel
    · obtain ⟨-, ⟨-, hchange, -⟩ | ⟨-, huncancel, -⟩⟩ := Event.isSupersededBy_iff.1 hlost
      · simp [hfs x hx] at hchange
      · simp [hfs x hx] at huncancel
  refine eq_of_mem_of_before (fun e => ?_) (Settled.ofEffective (hrise.imp Nat.ne_of_lt)).inOrder
    (List.pairwise_append.2
      ⟨(Settled.ofEffective (hfront.imp Nat.ne_of_lt)).inOrder.sublist List.filter_sublist,
        hsettled.inOrder, fun e he f hf => ?_⟩)
  · rw [mem_effectiveEvents_iff hids, List.mem_append, List.mem_append, List.mem_filter,
      mem_effectiveEvents_iff hfrontIds]
    constructor
    · rintro ⟨he | he, hkeeps⟩
      · refine .inl ⟨⟨he, fun x hx => hkeeps x (List.mem_append_left _ hx)⟩, decide_eq_true ?_⟩
        exact Int.not_lt.1 fun hlt => hkeeps c (by simp) (Event.isSupersededBy_of_move
          (hmoves e he) (hstarts e he) hc (hbehind e he c (List.mem_cons_self ..)) hlt)
      · exact .inr he
    · rintro (⟨⟨he, hkeeps⟩, hle⟩ | he)
      · refine ⟨.inl he, fun x hx => ?_⟩
        rcases List.mem_append.1 hx with hx | hx
        · exact hkeeps x hx
        · exact hkept (of_decide_eq_true hle) hx
      · refine ⟨.inr he, fun x hx hlost => ?_⟩
        rcases List.mem_append.1 hx with hx | hx
        · exact Nat.lt_asymm (Event.isSupersededBy_iff.1 hlost).1 (hbehind x hx e he)
        · exact hsettled.nothingLost e he x hx hlost
  · obtain ⟨he, hle⟩ := List.mem_filter.1 he
    have hle : e.effective ≤ f.effective := by
      refine Int.le_trans (of_decide_eq_true hle) ?_
      rcases List.mem_cons.1 hf with rfl | hf
      · exact Int.le_refl _
      · exact (List.pairwise_cons.1 hdate).1 f hf
    exact .of_date_le hle (hbehind e (mem_effectiveEvents.1 he).1 f hf)

/-! ## Stores in which nothing ends -/

/-- Nothing was ever cancelled: every event starts its subscription or moves it on. -/
structure Store.Ongoing (s : Store) : Prop where
  regular : s.Regular
  moves : ∀ e ∈ s.events, e.isMove = true

/-- The calls by which plans are set and changed. -/
def Call.setsPlans : Call → Bool
  | .createBundle .. | .createSubscription .. | .changePlan .. => true
  | _ => false

/-- Steps that set and change plans. -/
def settingPlans : Store → Step → Prop := fun _ st => st.call.setsPlans = true

theorem Call.isLifecycle_of_setsPlans {call : Call} (h : call.setsPlans = true) :
    call.isLifecycle = true := by
  cases call <;> first | rfl | cases h

theorem Rows.moves {s t : Store} {change : SubscriptionRecord → SubscriptionRecord}
    {fresh : List SubscriptionRecord} {written : List (Event × Nat)}
    (h : Rows s t change fresh written) (hs : ∀ e ∈ s.events, e.isMove = true)
    (hwritten : ∀ w ∈ written, w.1.isMove = true) : ∀ e ∈ t.events, e.isMove = true := by
  intro e he
  rw [h.events] at he
  rcases List.mem_append.1 he with he | he
  · exact hs e he
  · obtain ⟨w, hw, _, -, -, rfl⟩ := mem_filing he
    exact hwritten w hw

namespace Engine

variable {e : Engine} {context : CallContext} {now : Instant} {s : Store} {spec : PlanSpec}

theorem newSubscription_isMove {bundle : BundleId} {sub : Subscription}
    (h : e.newSubscription context now bundle spec s = .ok sub) :
    ∀ f ∈ sub.events, f.isMove = true := by
  intro f hf
  rcases newSubscription_type h f hf with htype | htype <;> rw [Event.isMove, htype] <;> rfl

theorem changeEvents_isMove {i : SubscriptionId} {events : List Event}
    (h : e.changeEvents context now i spec s = .ok events) : ∀ f ∈ events, f.isMove = true := by
  intro f hf
  rcases changeEvents_type h f hf with htype | htype <;> rw [Event.isMove, htype] <;> rfl

end Engine

theorem Step.ongoing {s : Store} (hs : s.Ongoing) {st : Step} (h : st.call.setsPlans = true) :
    (st.after s).Ongoing where
  regular := (Step.turned hs.regular (Call.isLifecycle_of_setsPlans h)).1
  moves := by
    rcases st.wrote hs.regular.sound with hsame | hwrote
    · rw [hsame]
      exact hs.moves
    · generalize st.after s = t at hwrote
      cases hwrote with
      | createBundle rows => exact rows.moves hs.moves (by simp)
      | createSubscription planned rows =>
        refine rows.moves hs.moves fun w hw => ?_
        obtain ⟨sub, hsub, hw⟩ := List.mem_flatMap.1 hw
        obtain ⟨f, hf, rfl⟩ := List.mem_map.1 hw
        exact Engine.newSubscription_isMove planned f (List.mem_singleton.1 hsub ▸ hf)
      | changePlan planned rows =>
        refine rows.moves hs.moves fun w hw => ?_
        obtain ⟨f, hf, rfl⟩ := List.mem_map.1 hw
        exact Engine.changeEvents_isMove planned f hf
      | cancel | uncancel | setChargedThrough | repair | migrate | transfer => cases h

theorem Run.ongoing {s : Store} (h : Run settingPlans {} s) : s.Ongoing :=
  h.preserves (fun _ _ hcall hs => Step.ongoing hs hcall) ⟨Store.regular_empty, by simp⟩

theorem Event.type_ne_of_isMove {e : Event} (h : e.isMove = true) : e.type ≠ .cancel := by
  intro htype
  rw [Event.isMove, htype] at h
  cases h

/-- The course of moves is the script of those that keep their effect. -/
theorem courseAt_eq_scriptAt {es : List Event} (hmoves : ∀ e ∈ es, e.isMove = true)
    (hdates : ∀ e ∈ es, e.effective.floorMillis = e.effective) (t : Instant) :
    courseAt es t = scriptAt ((effectiveEvents es).map (·.timed)) t := by
  rw [courseAt, List.filter_eq_self.2 hmoves, scriptAt_map_timed]
  congr 2
  exact List.filter_congr fun e he => by rw [hdates e (mem_effectiveEvents.1 he).1]

/-- The effective events up to a date. -/
def Subscription.upTo (sub : Subscription) (date : Instant) : List Event :=
  sub.effectiveEvents.filter (·.effective ≤ date)

namespace Store.Ongoing

variable {s : Store} (hs : s.Ongoing) (r : SubscriptionRecord)

include hs

theorem shown_isMove : ∀ e ∈ s.shown r, e.isMove = true :=
  fun e he => hs.moves e (mem_shown.1 he).1

theorem targetAt?_visible (t : Instant) : (s.visible r).targetAt? t = courseAt (s.shown r) t := by
  have ht := hs.regular.sound.tidy
  rw [Store.targetAt?_visible ht, standingAt_bind_target?_of_no_cancel (shown_ids ht r)
    fun e he => Event.type_ne_of_isMove (hs.shown_isMove r e he)]

theorem targetAt?_eq (t : Instant) :
    (s.visible r).targetAt? t = scriptAt ((s.visible r).effectiveEvents.map (·.timed)) t := by
  rw [hs.targetAt?_visible, courseAt_eq_scriptAt (hs.shown_isMove r) fun e he =>
    hs.regular.sound.tidy.eventDates e (mem_shown.1 he).1, Subscription.effectiveEvents,
    effectiveEvents_visible hs.regular.sound.tidy]

/-- For its position at a date the events up to then are enough. -/
theorem targetAt?_upTo (date : Instant) : (s.visible r).targetAt? date =
    scriptAt (((s.visible r).upTo date).map (·.timed)) date := by
  rw [hs.targetAt?_eq, scriptAt_map_timed, scriptAt_map_timed, Subscription.upTo,
    List.filter_filter]
  congr 2
  refine List.filter_congr fun f hf => ?_
  rw [visible_dates hs.regular.sound.tidy r f (mem_effectiveEvents.1 hf).1, Bool.and_self]

end Store.Ongoing

/-! ## A plan change -/

def Subscription.anchors (sub : Subscription) : Anchors := ⟨sub.bundleStart, sub.alignStart⟩

/-- A plan change as it is worked out: the position that it starts from, the plan and the price list
that it moves to, and the schedule there. -/
structure Switch where
  current : Target
  plan : Plan
  priceList : String
  schedule : Schedule

namespace Switch

def target (x : Switch) : Target := ⟨x.plan.name, x.schedule.current.phase.name, x.priceList⟩

def script (x : Switch) (date : Instant) : List TimedPayload :=
  changeScript date x.target x.schedule.upcoming

theorem script_roundsDown (x : Switch) {date : Instant} (hdate : date.RoundsDown)
    (hphases : ∀ p ∈ x.schedule.phases, p.start.RoundsDown) :
    ∀ y ∈ x.script date, y.effective.RoundsDown :=
  List.forall_mem_cons.2 ⟨hdate, List.forall_mem_map.2 fun p hp => hphases p (.tail _ hp)⟩

/-- The catalog draws the change at `date`. -/
structure Drawn (x : Switch) (catalog : Catalog) (anchors : Anchors) (spec : PlanSpec)
    (date : Instant) : Prop where
  found : catalog.findPlan spec date = .ok x.plan
  align : catalog.alignOnChange anchors x.current x.plan x.priceList date date = .ok x.schedule

namespace Drawn

variable {x y : Switch} {catalog : Catalog} {anchors : Anchors} {spec : PlanSpec}
  {date t : Instant} {xs : List TimedPayload}

theorem eq (hx : x.Drawn catalog anchors spec date) (hy : y.Drawn catalog anchors spec date)
    (hcurrent : x.current = y.current) (hpriceList : x.priceList = y.priceList) : x = y := by
  obtain ⟨current, plan, priceList, schedule⟩ := x
  obtain ⟨current', plan', priceList', schedule'⟩ := y
  obtain rfl : current = current' := hcurrent
  obtain rfl : priceList = priceList' := hpriceList
  obtain rfl : plan = plan' := Except.ok.inj (hx.found.symm.trans hy.found)
  obtain rfl : schedule = schedule' := Except.ok.inj (hx.align.symm.trans hy.align)
  rfl

theorem le_script (h : x.Drawn catalog anchors spec date) :
    ∀ y ∈ x.script date, date ≤ y.effective := by
  refine List.forall_mem_cons.2 ⟨Int.le_refl _, fun y hy => ?_⟩
  obtain ⟨p, hp, rfl⟩ := List.mem_map.1 hy
  exact Int.le_of_lt ((Catalog.alignOnChange_seenAt h.align).ahead p hp)

theorem script_roundsDown (h : x.Drawn catalog anchors spec date)
    (hbundle : anchors.bundleStart.RoundsDown) (halign : anchors.alignStart.RoundsDown)
    (hdate : date.RoundsDown) : ∀ y ∈ x.script date, y.effective.RoundsDown :=
  x.script_roundsDown hdate
    (Catalog.alignOnChange_keeps Duration.keeps_roundsDown h.align hbundle halign hdate)

theorem scriptAt_of_lt (h : x.Drawn catalog anchors spec date) (hdate : date.floorMillis = date)
    (ht : t < date) : scriptAt (xs ++ x.script date) t = scriptAt xs t :=
  scriptAt_append_of_lt h.le_script hdate ht

end Drawn

end Switch

/-- The events of a plan change. -/
def Switch.drafts (x : Switch) (i : SubscriptionId) (date : Instant) : List Draft :=
  ⟨i, date, .change x.target⟩ :: Engine.phaseDrafts i x.schedule

theorem Switch.script_eq (x : Switch) (i : SubscriptionId) (date : Instant) :
    x.script date = (x.drafts i date).map fun d => ⟨d.effective, d.payload⟩ := by
  rw [drafts, Engine.phaseDrafts, List.map_cons, List.map_map]
  rfl

section Laid

variable {x : Switch} {i : SubscriptionId} {date : Instant} {stamp : Stamp} {next : Nat → EventId}
  {n v : Nat}
  {fs : List Event} (h : Laid n fs ((stamp.events next (x.drafts i date)).map (·, v)))

include h

theorem Laid.switch_cons : ∃ c ps, fs = c :: ps ∧ c.type = .change ∧
    c.effective = date.floorMillis ∧ ∀ f ∈ ps, f.type = .phase := by
  obtain ⟨c, ps, ⟨_, -, rfl⟩, hps, rfl⟩ := List.forall₂_cons_right_iff.1 h
  refine ⟨_, ps, rfl, rfl, rfl, fun f hf => ?_⟩
  obtain ⟨g, hg, htype⟩ := Laid.mem_type hps hf
  obtain ⟨d, hd, _, -, rfl⟩ := Stamp.mem_events hg
  exact htype.trans (Engine.phaseDrafts_type hd)

/-- A change is laid down by date if no date of its script is moved on by rounding. -/
theorem Laid.switch_ascending
    (hascending : (x.drafts i date).Pairwise (fun a b => a.effective ≤ b.effective))
    (hdown : ∀ y ∈ x.script date, y.effective.RoundsDown) :
    fs.Pairwise (fun a b => a.effective ≤ b.effective) := by
  have hdrafts : ∀ d ∈ x.drafts i date, d.effective.RoundsDown := fun d hd =>
    hdown ⟨d.effective, d.payload⟩ (x.script_eq i date ▸ List.mem_map_of_mem hd)
  exact h.ascending (Stamp.pairwise_events _ _ hascending) (Stamp.events_dated hdrafts)

theorem Laid.switch_script (u : Instant) : (fs.filter (·.effective ≤ u)).map (·.payload) =
    ((x.script date).filter (·.effective.floorMillis ≤ u)).map (·.payload) := by
  rw [h.map_payload_filter, Stamp.map_payload_filter_events _ _ (·.floorMillis ≤ u),
    x.script_eq i date, List.filter_map, List.map_map]
  rfl

end Laid

/-- A change laid down behind a subscription leaves its script up to the date of the change, with
that of the change. -/
theorem Store.Grows.targetAt?_of_switch {s t : Store} {r : SubscriptionRecord} {fs : List Event}
    (h : s.Grows t r fs) (hs : s.Ongoing) (ht : t.Ongoing) (hr : r ∈ s.records) {x : Switch}
    {date : Instant} {stamp : Stamp} {next : Nat → EventId}
  {n v : Nat}
    (hlaid : Laid n fs ((stamp.events next (x.drafts r.id date)).map (·, v)))
    (hascending : (x.drafts r.id date).Pairwise (fun a b => a.effective ≤ b.effective))
    (hdown : ∀ y ∈ x.script date, y.effective.RoundsDown)
    (hstart : r.start ≤ date) (hdate : date.floorMillis = date) (u : Instant) :
    (t.visible r).targetAt? u =
      scriptAt (((s.visible r).upTo date).map (·.timed) ++ x.script date) u := by
  have htidy := hs.regular.sound.tidy
  have hdates := hlaid.switch_ascending hascending hdown
  have hscript := hlaid.switch_script u
  obtain ⟨c, ps, rfl, hc, hcdate, hps⟩ := hlaid.switch_cons
  rw [hdate] at hcdate
  have hstarts : ∀ f ∈ s.shown r, f.type.startsSubscription = true →
      f.effective ≤ c.effective := by
    intro f hf hkind
    have hmem := mem_starts.2 ⟨f, hf, hkind, rfl⟩
    rw [(hs.regular.opens r hr).starts, List.mem_singleton] at hmem
    rw [hmem, hcdate]
    exact hstart
  have hsofar : ((effectiveEvents (s.shown r)).filter (·.effective ≤ c.effective)) =
      (s.visible r).upTo date := by
    rw [Subscription.upTo, Subscription.effectiveEvents, effectiveEvents_visible htidy, hcdate]
  have hmillis : ((s.visible r).upTo date).filter (·.effective ≤ u) =
      ((s.visible r).upTo date).filter (·.effective.floorMillis ≤ u) := by
    refine List.filter_congr fun f hf => ?_
    rw [visible_dates htidy r f (mem_effectiveEvents.1 (List.mem_filter.1 hf).1).1]
  rw [ht.targetAt?_visible, courseAt, List.filter_eq_self.2 (ht.shown_isMove r), h.shown,
    effectiveEvents_append_change h.ids h.rises hdates (hs.shown_isMove r) hstarts hc hps, hsofar,
    List.filter_append, List.map_append, leads_append, hscript, hmillis, ← scriptAt_map_timed,
    ← scriptAt_append]

namespace Engine

variable {s t : Store} {e : Engine} {context : CallContext} {now : Instant} {i : SubscriptionId}
  {spec : PlanSpec} {changed : Subscription}

theorem wrote_of_changePlan (hs : s.Sound)
    (h : e.changePlan context now i spec s = (.ok changed, t)) :
    t = Step.after ⟨e, context, now, .changePlan i spec⟩ s ∧
      Wrote s t ⟨e, context, now, .changePlan i spec⟩ :=
  Step.wrote_of_ok hs (congrArg outcome h) (by simp)

/-- **A plan change** at once leaves what was in force up to its date, and from then on what the
catalog draws. -/
theorem targetAt?_changed (hs : s.Ongoing)
    (h : e.changePlan context now i spec s = (.ok changed, t)) {date : Instant}
    (hrequested : context.requested.getD now = date) (hdate : date.floorMillis = date)
    (hpolicy : ∀ source terms, e.catalog.planChange source spec date = .ok terms →
      terms.policy = .immediate) :
    ∃ sub, ∃ x : Switch, ∃ source terms live, s.subscription? i = some sub ∧
      sub.targetAt? date = some x.current ∧ e.catalog.position x.current date = .ok source ∧
      e.catalog.planChange source spec date = .ok terms ∧ x.priceList = terms.newPriceList ∧
      x.Drawn e.catalog sub.anchors spec date ∧ t.subscription? i = some live ∧
      ∀ u, live.targetAt? u = scriptAt ((sub.upTo date).map (·.timed) ++ x.script date) u := by
  have htidy := hs.regular.sound.tidy
  obtain ⟨ht, hwrote⟩ := wrote_of_changePlan hs.regular.sound h
  have hongoing : t.Ongoing := ht ▸ Step.ongoing hs rfl
  cases hwrote with
  | changePlan planned rows =>
  have hown := changeEvents_own planned
  obtain ⟨sub, current, plan, terms, schedule, hsub, hlive, hplan, ⟨source, hsource, hterms⟩,
    halign, rfl⟩ := changeEvents_eq_ok planned
  rw [hrequested] at hlive hplan hsource hterms
  have heffective : policyDate terms.policy sub date = date := by
    rw [hpolicy source terms hterms]
    rfl
  rw [hrequested, heffective] at halign rows hown
  obtain ⟨r, hr, rfl, rfl⟩ := (Store.subscription?_eq_some htidy).1 hsub
  obtain ⟨fs, hgrows, hlaid⟩ := rows.grows htidy hongoing.regular.sound.tidy hr
  rw [List.filter_eq_self.2 fun f hf => by simp [hown f hf]] at hlaid
  obtain ⟨st, hst, -, -, -, htarget⟩ := liveTarget_eq_ok hlive
  refine ⟨s.visible r, ⟨current, plan, terms.newPriceList, schedule⟩, source, terms, t.visible r,
    hsub, ?_, hsource, hterms, rfl, ⟨hplan, halign⟩,
    rows.subscription?_visible hongoing.regular.sound.tidy hr, ?_⟩
  · rw [Subscription.targetAt?, hst, Option.bind_some, htarget]
  · have hdated := htidy.visible_dated hr
    have hdrawn : Switch.Drawn ⟨current, plan, terms.newPriceList, schedule⟩ e.catalog
        (s.visible r).anchors spec date := ⟨hplan, halign⟩
    exact hgrows.targetAt?_of_switch hs hongoing hr hlaid
      (pairwise_drafts (Catalog.alignOnChange_seenAt halign) _)
      (hdrawn.script_roundsDown hdated.bundleStart hdated.alignStart
        (Instant.roundsDown_of_floorMillis hdate))
      (hs.regular.live_of_liveTarget hr hlive).1 hdate

end Engine

end Tenure
