import Tenure.Proofs.Planning

/-!
# The starts of a history

A subscription is opened by one event: a creation, a transfer or the first case of an import. A
repair writes a start event exactly for a subscription that it builds anew, at the date at which
the subscription then starts (`Planned.starts_added`). So what a repair writes is never empty:
either something is kept or there is a new start.
-/

namespace Tenure

/-- The dates of the events that start the subscription. -/
def starts (es : List Event) : List Instant :=
  (es.filter (·.type.startsSubscription)).map (·.effective)

theorem starts_append (es fs : List Event) : starts (es ++ fs) = starts es ++ starts fs := by
  simp [starts]

theorem starts_singleton (e : Event) :
    starts [e] = if e.type.startsSubscription then [e.effective] else [] := by
  cases h : e.type.startsSubscription <;> simp [starts, h]

theorem starts_cons (e : Event) (es : List Event) :
    starts (e :: es) = (if e.type.startsSubscription then [e.effective] else []) ++ starts es := by
  rw [← starts_singleton, ← starts_append, List.singleton_append]

theorem mem_starts {es : List Event} {date : Instant} :
    date ∈ starts es ↔ ∃ e ∈ es, e.type.startsSubscription = true ∧ e.effective = date := by
  simp [starts, and_assoc]

theorem starts_eq_nil {es : List Event} :
    starts es = [] ↔ ∀ e ∈ es, e.type.startsSubscription = false := by
  simp [starts]

/-! ## Replays -/

namespace Cursor

variable {c : Cursor} {e : Event} {t : Transition}

theorem transition?_eq_some (h : c.transition? e = some t) :
    t.type = e.type ∧ t.effective = e.effective ∧
      c.destination? e.payload = some (t.next, t.activity) := by
  obtain ⟨⟨next, activity⟩, hdest, rfl⟩ := Option.map_eq_some_iff.1 h
  exact ⟨rfl, rfl, hdest⟩

theorem transition?_of_starts (c : Cursor) (h : e.type.startsSubscription = true) :
    (c.transition? e).isSome := by
  unfold Event.type at h
  unfold transition?
  cases hp : e.payload <;> rw [hp] at h <;> first | rfl | cases h

end Cursor

theorem starts_transitionsFrom (c : Cursor) (es : List Event) :
    ((transitionsFrom c es).filter (·.type.startsSubscription)).map (·.effective) = starts es := by
  induction es generalizing c with
  | nil => rfl
  | cons e es ih =>
    rw [starts_cons, transitionsFrom]
    cases ht : c.transition? e with
    | none =>
      have hno : ¬ e.type.startsSubscription = true := by
        intro h
        have := c.transition?_of_starts h
        simp [ht] at this
      rw [if_neg hno]
      exact ih c
    | some t =>
      obtain ⟨htype, hdate, -⟩ := Cursor.transition?_eq_some ht
      show ((t :: transitionsFrom (c.advance t) es).filter _).map _ = _
      rw [List.filter_cons, htype, ← ih (c.advance t)]
      by_cases h : e.type.startsSubscription = true
      · simp [h, hdate]
      · simp [h]

theorem eras_opening (history : List Transition) :
    (eras history).map (·.opening.effective) =
      (history.filter (·.type.startsSubscription)).map (·.effective) := by
  induction history with
  | nil => rfl
  | cons t ts ih =>
    unfold eras
    by_cases h : t.type.startsSubscription = true
    · simp [h, ih]
    · simp [h, ih]

theorem mem_of_eraAt? {history : List Transition} {asOf : Instant} {era : Era}
    (h : eraAt? history asOf = some era) : era ∈ eras history := by
  unfold eraAt? at h
  split at h
  next hfound =>
    cases h
    rw [List.findRev?_eq_find?_reverse] at hfound
    exact List.mem_reverse.1 (List.mem_of_find?_eq_some hfound)
  · exact List.mem_of_mem_head? (by simp [h])

/-- No start event loses its effect. -/
theorem mem_effectiveEvents_of_starts {es : List Event} (hids : (es.map (·.id)).Nodup) {e : Event}
    (he : e ∈ es) (hstart : e.type.startsSubscription = true) : e ∈ effectiveEvents es := by
  refine mem_effectiveEvents.2 ⟨he, fun hlost => ?_⟩
  obtain ⟨f, hf, ⟨c, -, hc⟩, hid⟩ := mem_superseded.1 hlost
  obtain rfl := List.inj_on_of_nodup_map hids hf he hid
  obtain ⟨-, ⟨htype | htype, -⟩ | ⟨htype, -⟩⟩ := Event.isSupersededBy_iff.1 hc <;>
    simp [htype, EventType.startsSubscription] at hstart

theorem starts_effectiveEvents {es : List Event} (hids : (es.map (·.id)).Nodup) :
    (starts (effectiveEvents es)).Perm (starts es) := by
  have hkeeps (e : Event) (he : e ∈ es) :
      (e.type.startsSubscription && !(superseded es).contains e.id) =
        e.type.startsSubscription := by
    by_cases hstart : e.type.startsSubscription = true
    · have hkept := (mem_effectiveEvents.1 (mem_effectiveEvents_of_starts hids he hstart)).2
      simp [hkept]
    · simp [hstart]
  have hsorted : (starts (effectiveEvents es)).Perm
      (starts (es.filter fun e => !(superseded es).contains e.id)) :=
    ((sortBy_perm _ _).filter _).map _
  refine hsorted.trans (.of_eq ?_)
  rw [starts, starts, List.filter_filter, List.filter_congr hkeeps]

section Standings

variable {es : List Event} {category : Category} {asOf : Instant}

theorem map_opening_transitions (es : List Event) :
    (eras (transitions es)).map (·.opening.effective) = starts (effectiveEvents es) := by
  rw [eras_opening, transitions, starts_transitionsFrom]

/-- Events without a start have no state at any time, and events with one have a state always. -/
theorem standingAt_eq_none (hids : (es.map (·.id)).Nodup) :
    standingAt es category asOf = none ↔ starts es = [] := by
  have hperm := starts_effectiveEvents hids
  have hnil : starts es = [] ↔ eras (transitions es) = [] := by
    rw [← List.map_eq_nil_iff (f := fun era : Era => era.opening.effective),
      map_opening_transitions, ← List.length_eq_zero_iff, ← List.length_eq_zero_iff,
      hperm.length_eq]
  rw [hnil]
  unfold standingAt eraAt?
  simp only [Option.map_eq_none_iff]
  constructor
  · intro h
    split at h
    · cases h
    · exact List.head?_eq_none_iff.1 h
  · intro h
    rw [h]
    rfl

theorem start_mem_starts (hids : (es.map (·.id)).Nodup) {st : Standing}
    (h : standingAt es category asOf = some st) : st.start ∈ starts es := by
  refine (starts_effectiveEvents hids).mem_iff.1 ?_
  rw [← map_opening_transitions]
  obtain ⟨era, hera, rfl⟩ := Option.map_eq_some_iff.1 h
  exact List.mem_map_of_mem (mem_of_eraAt? hera)

end Standings

/-! ## Repairs -/

theorem Rework.Carried.startsSubscription {w : Rework} {cx : ReplayContext} {p : Proposal}
    {payload : Payload} {prospects : List Prospect} (h : w.Carried cx p payload prospects) :
    payload.type.startsSubscription = p.type.isRecreation := by
  cases h with
  | creation htype =>
    rw [htype]
    split <;> rfl
  | change htype => rw [htype]; rfl
  | cancel htype => rw [htype]; rfl

namespace Replay

variable {cx : ReplayContext} {works works' : List Rework}

/-- The dates of the creations among the proposals still in line for a subscription. -/
def pendingStarts (ops : List Operation) (i : SubscriptionId) : List Instant :=
  (ops.filter fun op => op.subscription == i && op.proposal.type.isRecreation).map
    (·.proposal.effective)

/-- The dates at which the proposals build a subscription anew. -/
def proposedStarts (w : Rework) : List Instant :=
  (w.proposals.filter (·.type.isRecreation)).map (·.effective)

theorem pendingStarts_append (ops ops' : List Operation) (i : SubscriptionId) :
    pendingStarts (ops ++ ops') i = pendingStarts ops i ++ pendingStarts ops' i := by
  simp [pendingStarts]

theorem pendingStarts_own (w : Rework) (i : SubscriptionId) :
    pendingStarts (w.proposals.map fun p => ⟨w.id, p⟩) i =
      if w.id = i then proposedStarts w else [] := by
  split
  next h =>
    simp only [pendingStarts, proposedStarts, List.filter_map, List.map_map, h]
    simp [Function.comp_def]
  next h => simp [pendingStarts, h]

theorem pendingStarts_agenda (hids : (works.map (·.id)).Nodup) {w : Rework} (hw : w ∈ works) :
    (pendingStarts (agenda works) w.id).Perm (proposedStarts w) := by
  have hperm : (pendingStarts (agenda works) w.id).Perm
      (pendingStarts (works.flatMap fun w => w.proposals.map fun p => ⟨w.id, p⟩) w.id) :=
    ((sortBy_perm _ _).filter _).map _
  refine hperm.trans (.of_eq ?_)
  clear hperm
  induction works with
  | nil => cases hw
  | cons w' works ih =>
    obtain ⟨hnew, hids⟩ := List.nodup_cons.1 hids
    rw [List.flatMap_cons, pendingStarts_append, pendingStarts_own]
    rcases List.mem_cons.1 hw with rfl | hw
    · have hrest : pendingStarts (works.flatMap fun w => w.proposals.map fun p => ⟨w.id, p⟩)
          w.id = [] := by
        simp only [pendingStarts, List.map_eq_nil_iff, List.filter_eq_nil_iff, List.mem_flatMap,
          List.mem_map]
        rintro _ ⟨w', hw', p, -, rfl⟩
        have hne : w'.id ≠ w.id := fun h => hnew (List.mem_map.2 ⟨w', hw', h⟩)
        simp [hne]
      rw [hrest, if_pos rfl, List.append_nil]
    · have hne : w'.id ≠ w.id := fun h => hnew (List.mem_map.2 ⟨w, hw, h.symm⟩)
      rw [if_neg hne, ih hids hw, List.nil_append]

/-- Of the creations among its proposals, each subscription has start events for those carried out
and the others in line. -/
def StartsInLine (r : Replay) (ops : List Operation) : Prop :=
  ∀ w ∈ r.works, (starts w.added ++ pendingStarts ops w.id).Perm (proposedStarts w)

namespace StartsInLine

variable {r : Replay} {ops : List Operation} {op : Operation}

theorem enter (h : StartsInLine r ops) (p : Prospect) (ps : List Prospect) :
    StartsInLine (Replay.enter cx { r with prospects := ps } p) ops := by
  unfold Replay.enter
  split
  · intro w' hw'
    rcases mem_record_works.1 hw' with ⟨hw', -⟩ | ⟨w, hw, -, rfl⟩
    · exact h w' hw'
    · have hphase : starts (w.adding (next cx { r with prospects := ps } p.subscription p.date
          (.phase p.phase))).added = starts w.added := by
        rw [Rework.adding_added, starts_append, starts_singleton]
        simp [Payload.type, EventType.startsSubscription]
      rw [hphase]
      exact h w hw
  · exact h

theorem perform (h : StartsInLine r (op :: ops)) {w : Rework} {payload : Payload}
    {prospects : List Prospect} (hout : w.Carried cx op.proposal payload prospects) :
    StartsInLine ((r.record cx op.subscription op.proposal.effective payload).replaceProspects
      op.subscription prospects) ops := by
  intro w' hw'
  rcases mem_record_works.1 hw' with ⟨hw', hne⟩ | ⟨w'', hw'', hid, rfl⟩
  · have hskip : pendingStarts (op :: ops) w'.id = pendingStarts ops w'.id := by
      simp [pendingStarts, Ne.symm hne]
    exact hskip ▸ h w' hw'
  · have hstep : starts (w''.adding (next cx r op.subscription op.proposal.effective
        payload)).added ++ pendingStarts ops w''.id =
        starts w''.added ++ pendingStarts (op :: ops) w''.id := by
      rw [Rework.adding_added, starts_append, List.append_assoc, starts_singleton, next_type,
        hout.startsSubscription, next_effective, hid]
      congr 1
      by_cases hre : op.proposal.type.isRecreation <;> simp [pendingStarts, hre]
    rw [Rework.adding_id, hstep]
    exact h w'' hw''

theorem skip (h : StartsInLine r (op :: ops)) (hw : r.work? op.subscription = none) :
    StartsInLine r ops := by
  intro w hmem
  have hne : op.subscription ≠ w.id := by
    intro hid
    have := List.find?_eq_none.1 hw w hmem
    simp [hid] at this
  have hskip : pendingStarts (op :: ops) w.id = pendingStarts ops w.id := by
    simp [pendingStarts, hne]
  exact hskip ▸ h w hmem

end StartsInLine

/-- Each creation carried out leaves one start event of its date, and nothing else leaves any. -/
theorem performAll_starts {r r' : Replay} {ops : List Operation}
    (h : r.performAll cx ops = .ok r') (hr : StartsInLine r ops) :
    ∀ w ∈ r'.works, (starts w.added).Perm (proposedStarts w) := by
  have hend : StartsInLine r' [] := (performAll_induct (P := StartsInLine)
    (fun _ p ps _ _ _ h => h.enter p ps)
    (fun _ _ _ _ _ _ _ _ hout h => h.perform (Rework.carried_of_eq_ok hout))
    (fun _ _ _ hw h => h.skip hw) h hr).1
  simpa [StartsInLine, pendingStarts] using hend

end Replay

/-- Proposals in good shape build a subscription anew with the first of them, if at all. -/
theorem Rework.Prepared.proposedStarts_eq {w : Rework} (h : w.Prepared) :
    Replay.proposedStarts w = if w.isRecreated then [w.start] else [] := by
  have hshape := h.shape
  unfold Replay.proposedStarts Rework.isRecreated Rework.start
  cases hp : w.proposals with
  | nil => simp
  | cons p ps =>
    rw [hp, Proposal.firstDisallowed?] at hshape
    split at hshape
    · have hrest : ps.filter (·.type.isRecreation) = [] := by
        apply List.filter_eq_nil_iff.2
        intro q hq
        have := List.find?_eq_none.1 hshape q hq
        simp only [Proposal.isFollowUp, Bool.not_eq_true', Bool.not_eq_false, Bool.or_eq_true,
          beq_iff_eq] at this
        rcases this with htype | htype <;> simp [htype, EventType.isRecreation]
      by_cases hre : p.type.isRecreation <;> simp [hrest, hre]
    · cases hshape

namespace Planned

variable {b : Workbench} {cx : ReplayContext} {repair : Repair} {view : String}
  {works : List Rework} {plan : RepairPlan}

/-- A repair starts a subscription that it builds anew, once, and no other. -/
theorem starts_added (h : Planned b cx repair view works plan)
    (hload : Loaded b.subscriptions cx.ids) {w : Rework} (hw : w ∈ works) :
    starts w.added = if w.isRecreated then [w.start] else [] := by
  obtain ⟨owed, -, r, hr, rfl⟩ := Replay.run_eq_ok.1 h.ran
  have hperm := Replay.performAll_starts hr (fun w hw => by
    rw [(h.benched_prepared hw).2]
    exact Replay.pendingStarts_agenda (hload.workIds h.benched) hw) w hw
  rw [(h.work_prepared hw).proposedStarts_eq] at hperm
  split at hperm
  next hre => rw [List.perm_singleton.1 hperm, if_pos hre]
  next hre => rw [List.perm_nil.1 hperm, if_neg hre]

theorem events_ne_nil (h : Planned b cx repair view works plan)
    (hload : Loaded b.subscriptions cx.ids) {w : Rework} (hw : w ∈ works) :
    w.events ≠ [] := by
  intro hnil
  obtain ⟨hkept, hadded⟩ := List.append_eq_nil_iff.1 hnil
  have hre := (h.work_prepared hw).recreated.2 hkept
  have hstarts := h.starts_added hload hw
  rw [hadded, if_pos hre] at hstarts
  cases hstarts

end Planned

end Tenure
