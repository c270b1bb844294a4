import Tenure.Proofs.Course

/-!
# The span of a subscription

A subscription that starts once is active over one stretch of time. It begins at the start, and it
ends at the first cancellation that lies at or behind the start and is not taken back. The state at
a date follows from this span and from the moves up to the date (`OpensOnce.standingAt`,
`OpensOnce.target?`).

Written this way a growing history is easy to follow. A cancellation recorded behind all others
moves the end to its own date if it lies in front of the end, an uncancellation removes an end that
it does not lie behind, and nothing else touches it.
-/

namespace Tenure

/-! ## Spans -/

/-- A stretch of time, its end left out. -/
structure Span where
  start : Instant
  finish : Option Instant
  deriving DecidableEq

namespace Span

def Has (p : Span) (t : Instant) : Prop := p.start ≤ t ∧ ∀ f ∈ p.finish, t < f

instance (p : Span) (t : Instant) : Decidable (p.Has t) :=
  inferInstanceAs (Decidable (_ ∧ _))

/-- The span begins and ends with a millisecond. -/
structure InMillis (p : Span) : Prop where
  start : p.start.floorMillis = p.start
  finish : ∀ f ∈ p.finish, f.floorMillis = f

variable {p : Span} {t u : Instant}

theorem Has.start_le (h : p.Has t) : p.start ≤ t := h.1

theorem has_of_open (h : p.finish = none) : p.Has t ↔ p.start ≤ t := by
  simp [Has, h]

end Span

/-- Dates in whole milliseconds compare with an instant as with its millisecond. -/
theorem Instant.le_floorMillis {a t : Instant} (ha : a.floorMillis = a) (ht : t.RoundsDown) :
    a ≤ t.floorMillis ↔ a ≤ t := by
  constructor
  · intro h
    exact Int.le_trans h ht
  · intro h
    rw [← ha]
    exact Instant.floorMillis_mono (Instant.roundsDown_of_floorMillis ha) h

/-- The earlier of two ends, where there may be none. -/
def Instant.earlier : Option Instant → Option Instant → Option Instant
  | some a, some b => some (if a ≤ b then a else b)
  | some a, none => some a
  | none, b => b

/-! ## Cursors before the start and behind it -/

section Cursors

variable {c : Cursor} {e : Event} {es : List Event}

theorem transition?_start_of_not_starts (h : e.type.startsSubscription = false) :
    Cursor.start.transition? e = none := by
  unfold Event.type at h
  unfold Cursor.transition?
  cases hp : e.payload <;> rw [hp] at h <;> first | rfl | cases h

theorem transitionsFrom_start_of_not_starts (h : starts es = []) :
    transitionsFrom .start es = [] := by
  induction es with
  | nil => rfl
  | cons e es ih =>
    rw [starts_eq_nil] at h ih
    rw [transitionsFrom, transition?_start_of_not_starts (h e (by simp))]
    exact ih fun f hf => h f (by simp [hf])

theorem through_start_of_not_starts (h : starts es = []) :
    Cursor.start.through es = .start := by
  induction es with
  | nil => rfl
  | cons e es ih =>
    rw [starts_eq_nil] at h ih
    rw [Cursor.through_cons, Cursor.after, transition?_start_of_not_starts (h e (by simp))]
    exact ih fun f hf => h f (by simp [hf])

/-- The first transition that cancels is made by the first cancellation. -/
theorem find?_cancelled_transitionsFrom (hc : c.isLive = true) (h : starts es = []) :
    ((transitionsFrom c es).find? (·.activity == .cancelled)).map (·.effective) =
      (es.find? (·.type == .cancel)).map (·.effective) := by
  induction es generalizing c with
  | nil => rfl
  | cons e es ih =>
    rw [starts_cons, List.append_eq_nil_iff] at h
    obtain ⟨hstart, hrest⟩ := h
    have hc' : c.target.isSome = true ∧ c.cancelled = false := by simpa [Cursor.isLive] using hc
    unfold Event.type at hstart
    cases hp : e.payload <;> rw [hp] at hstart
    case create | reCreate | transfer | migrateEntitlement => cases hstart
    case cancel =>
      simp [transitionsFrom, Cursor.transition?, Cursor.destination?, hp, hc, Event.type,
        Payload.type]
    case uncancel | migrateBilling =>
      simpa [transitionsFrom, Cursor.transition?, Cursor.destination?, hp, Event.type,
        Payload.type] using ih hc hrest
    case change target =>
      have hlive : Cursor.isLive ⟨some target, false⟩ = true := rfl
      simpa [transitionsFrom, Cursor.transition?, Cursor.destination?, Cursor.advance, hp, hc,
        Event.type, Payload.type] using ih hlive hrest
    case phase name =>
      have hlive :
          Cursor.isLive ⟨c.target.map fun t => { t with phase := name }, false⟩ = true := by
        simp [Cursor.isLive, hc']
      simpa [transitionsFrom, Cursor.transition?, Cursor.destination?, Cursor.advance, hp, hc,
        Event.type, Payload.type] using ih hlive hrest

theorem Cursor.cancels {t : Transition} (h : c.transition? e = some t)
    (hactivity : t.activity = .cancelled) :
    t.type = .cancel ∧ t.next = none ∧ t.previous = c.target ∧ c.isLive = true := by
  have hadmits := admits h
  have htype := hadmits.type_of_cancelled hactivity
  have hlive : c.isLive = true := hadmits.live (by rw [htype]; rfl)
  have hrunning : c.cancelled = false := by simpa using (Bool.and_eq_true_iff.1 hlive).2
  refine ⟨htype, (hadmits.cancels htype).1, ?_, hlive⟩
  rw [hadmits.previous, previous, hrunning]
  rfl

theorem lastTarget_of_cancelled (h : (Cursor.start.through es).cancelled = true) :
    lastTarget (transitionsFrom .start es) = none := by
  induction es using List.reverseRecOn with
  | nil => rfl
  | append_singleton es e ih =>
    rw [Cursor.through_append, Cursor.through_singleton, Cursor.after] at h
    rw [transitionsFrom_append, transitionsFrom]
    cases ht : (Cursor.start.through es).transition? e with
    | none =>
      rw [ht] at h
      simpa [transitionsFrom] using ih h
    | some t =>
      rw [ht] at h
      have hactivity : t.activity = .cancelled := by
        cases hact : t.activity with
        | active => simp [Cursor.advance, hact] at h
        | cancelled => rfl
      simp [lastTarget, transitionsFrom, (Cursor.cancels ht hactivity).2.1]

/-- Behind events stands the target that they lead to, and none if they cancel in the end. -/
theorem lastTarget_through (es : List Event) :
    lastTarget (transitionsFrom .start es) =
      if (Cursor.start.through es).cancelled then none else (Cursor.start.through es).target := by
  by_cases h : (Cursor.start.through es).cancelled = true
  · rw [if_pos h, lastTarget_of_cancelled h]
  · rw [if_neg h, ((tells_through es).target (by simpa using h))]

end Cursors

theorem reached_cancelled_of_not_started {es : List Event} {t : Instant}
    (h : (reached es t).target = none) : (reached es t).cancelled = false := by
  have hnone : starts ((effectiveEvents es).filter (·.effective ≤ t)) = [] := by
    by_contra hne
    have hstarted := target_isSome_through hne
    rw [← reached, h] at hstarted
    cases hstarted
  rw [reached, through_start_of_not_starts hnone]
  rfl

theorem reached_target_of_none {es : List Event} {category : Category} {t : Instant}
    (h : standingAt es category t = none) : (reached es t).target = none := by
  by_contra hne
  obtain ⟨st, hst, -⟩ := standingAt_of_started category (Option.isSome_iff_ne_none.2 hne)
  cases h.symm.trans hst

theorem standingAt_isCancelled {es : List Event} {category : Category} {t : Instant} {st : Standing}
    (h : standingAt es category t = some st) : st.isCancelled = (reached es t).cancelled := by
  cases htarget : (reached es t).target with
  | some target =>
    have hstarted : (reached es t).target.isSome = true := Option.isSome_of_eq_some htarget
    obtain ⟨_, hst, -, hcancelled, -⟩ := standingAt_of_started category hstarted
    cases h.symm.trans hst
    exact hcancelled
  | none =>
    rw [reached_cancelled_of_not_started htarget]
    exact (standingAt_of_not_started h htarget).2

/-- The target held at a date is where the cursor has got to, and none once it is cancelled. -/
theorem standingAt_target? {es : List Event} {category : Category} {t : Instant} {st : Standing}
    (h : standingAt es category t = some st) :
    st.target? = if (reached es t).cancelled then none else (reached es t).target := by
  obtain ⟨era, -, rfl⟩ := Option.map_eq_some_iff.1 h
  refine (Standing.target?_eq rfl rfl rfl).trans ?_
  rw [findRev?_transitions]
  exact lastTarget_through _

theorem standingAt_plan_isSome {es : List Event} {category : Category} {t : Instant} {st : Standing}
    (h : standingAt es category t = some st) : st.plan.isSome = st.target?.isSome := by
  obtain ⟨era, -, rfl⟩ := Option.map_eq_some_iff.1 h
  rw [Standing.target?_eq rfl rfl rfl, Option.isSome_map]

theorem standingAt_isLive {es : List Event} {category : Category} {t : Instant} {st : Standing}
    (h : standingAt es category t = some st) :
    (st.plan.isSome && !st.isCancelled) = st.target?.isSome := by
  rw [standingAt_plan_isSome h, standingAt_target? h, standingAt_isCancelled h]
  cases (reached es t).cancelled <;> simp

/-- The position at a date is where the cursor has got to, and none once it is cancelled. -/
theorem standingAt_bind_target? {es : List Event} (category : Category) (t : Instant) :
    (standingAt es category t).bind (·.target?) =
      if (reached es t).cancelled then none else (reached es t).target := by
  cases hst : standingAt es category t with
  | some st => exact standingAt_target? hst
  | none => simp [reached_target_of_none hst]

/-- With one era there is a state at every date, with one start and one end. -/
theorem standingAt_of_eras {es : List Event} {era : Era} (h : eras (transitions es) = [era])
    (category : Category) (t : Instant) :
    ∃ st, standingAt es category t = some st ∧ st.start = era.opening.effective ∧
      st.finish = era.endDate? ∧ st.isCancelled = era.endDate?.any (· ≤ t) ∧
      st.isFutureCancelled = era.endDate?.any (t < ·) := by
  have hera : eraAt? (transitions es) t = some era := by
    unfold eraAt?
    rw [h]
    by_cases hle : era.opening.effective ≤ t
    · simp [List.findRev?, hle]
    · simp [List.findRev?, hle]
  exact ⟨_, by rw [standingAt, hera]; rfl, rfl, rfl, rfl, rfl⟩

/-- So it is where there is one start, whatever is recorded in front of it. -/
theorem standingAt_of_starts {es : List Event} (hids : (es.map (·.id)).Nodup) {start : Instant}
    (h : starts es = [start]) :
    ∃ finish : Option Instant, ∀ category t, ∃ st, standingAt es category t = some st ∧
      st.start = start ∧ st.finish = finish ∧ st.isCancelled = finish.any (· ≤ t) ∧
      st.isFutureCancelled = finish.any (t < ·) := by
  have hopening := map_opening_transitions es
  have hperm := starts_effectiveEvents hids
  rw [h] at hperm
  rw [List.perm_singleton.1 hperm] at hopening
  obtain ⟨era, heras, rfl⟩ := List.map_eq_singleton_iff.1 hopening
  exact ⟨era.endDate?, standingAt_of_eras heras⟩

theorem reached_cancelled_mono {es : List Event} (hids : (es.map (·.id)).Nodup) {start : Instant}
    (hstarts : starts es = [start]) {date t : Instant} (h : (reached es date).cancelled = true)
    (hle : date ≤ t) : (reached es t).cancelled = true := by
  obtain ⟨finish, hfinish⟩ := standingAt_of_starts hids hstarts
  have hread (t : Instant) : (reached es t).cancelled = finish.any (· ≤ t) := by
    obtain ⟨st, hst, -, -, hcancelled, -⟩ := hfinish .base t
    rw [← standingAt_isCancelled hst, hcancelled]
  rw [hread, Option.any_eq_true] at h ⊢
  obtain ⟨f, hf, hdate⟩ := h
  exact ⟨f, hf, decide_eq_true (Int.le_trans (of_decide_eq_true hdate) hle)⟩

/-! ## The end -/

/-- The effective cancellations at or behind the start. -/
def stops (start : Instant) (es : List Event) : List Event :=
  (effectiveEvents es).filter fun e => e.type == .cancel && start ≤ e.effective

/-- The date of the first of them. -/
def endOf (start : Instant) (es : List Event) : Option Instant :=
  (stops start es).head?.map (·.effective)

/-- The span of a subscription with these events. -/
def spanOf (start : Instant) (es : List Event) : Span := ⟨start, endOf start es⟩

/-- A history in the order of recording with one start, which no cancellation is recorded in front
of. -/
structure OpensOnce (start : Instant) (es : List Event) : Prop where
  ids : (es.map (·.id)).Nodup
  ordered : es.Pairwise fun a b =>
    a.ordering < b.ordering ∧ (a.type = .cancel → b.type.startsSubscription = false)
  starts : starts es = [start]

/-- The position that the moves up to a date lead to. -/
def courseAt (es : List Event) (t : Instant) : Option Target :=
  leads none (((effectiveEvents (es.filter (·.isMove))).filter (·.effective ≤ t)).map (·.payload))

theorem target_reached {es : List Event} {t : Instant} (hids : (es.map (·.id)).Nodup)
    (h : (reached es t).cancelled = false) : (reached es t).target = courseAt es t := by
  rw [reached, target_through (c := .start) (fun _ => rfl) h, courseAt,
    effectiveEvents_moves hids, List.filter_comm, leads_filter_isMove]
  rfl

namespace OpensOnce

variable {start : Instant} {es fs : List Event} {e f : Event} {t : Instant}

theorem rises (h : OpensOnce start es) : es.Pairwise (fun a b => a.ordering < b.ordering) :=
  h.ordered.imp And.left

/-- The effective events are cut in two by the start, and the cancellations that count are those
behind it. -/
theorem split (h : OpensOnce start es) :
    ∃ front opening back, effectiveEvents es = front ++ opening :: back ∧
      opening.type.startsSubscription = true ∧ opening.effective = start ∧
      Tenure.starts front = [] ∧ Tenure.starts back = [] ∧
      stops start es = back.filter (·.type == .cancel) := by
  have hperm := starts_effectiveEvents h.ids
  rw [h.starts, List.perm_singleton] at hperm
  obtain ⟨opening, hfilter, hdate⟩ := List.map_eq_singleton_iff.1 hperm
  obtain ⟨front, back, hsplit, hfront, hopening, hback⟩ := List.filter_eq_cons_iff.1 hfilter
  have hbefore := (Settled.ofEffective (h.rises.imp Nat.ne_of_lt)).inOrder
  rw [hsplit] at hbefore
  obtain ⟨-, hrest, hcut⟩ := List.pairwise_append.1 hbefore
  have hmem {x : Event} (hx : x ∈ front ++ opening :: back) : x ∈ es :=
    (mem_effectiveEvents.1 (hsplit ▸ hx)).1
  have hnot : ¬ opening.type = .cancel := by
    intro htype
    rw [htype] at hopening
    cases hopening
  refine ⟨front, opening, back, hsplit, hopening, hdate,
    starts_eq_nil.2 fun x hx => by simpa using hfront x hx,
    starts_eq_nil.2 fun x hx => ?_, ?_⟩
  · simpa using List.filter_eq_nil_iff.1 hback x hx
  · have hnone : front.filter (fun x => x.type == .cancel && start ≤ x.effective) = [] := by
      refine List.filter_eq_nil_iff.2 fun x hx hstop => ?_
      simp only [Bool.and_eq_true, beq_iff_eq, decide_eq_true_eq] at hstop
      exact (Event.before_of_ordered h.ordered (hmem (by simp)) (hmem (by simp [hx])) hopening
        hstop.1 (hdate ▸ hstop.2)).asymm (hcut x hx opening (by simp))
    have hself : (opening.type == .cancel && decide (start ≤ opening.effective)) = false := by
      simp [hnot]
    rw [stops, hsplit, List.filter_append, hnone, List.nil_append, List.filter_cons, hself]
    refine List.filter_congr fun x hx => ?_
    have hle : start ≤ x.effective := hdate ▸ ((List.pairwise_cons.1 hrest).1 x hx).date_le
    simp [hle]

theorem eras_eq (h : OpensOnce start es) :
    ∃ era, eras (transitions es) = [era] ∧ era.opening.effective = start ∧
      era.endDate? = endOf start es := by
  obtain ⟨front, opening, back, hsplit, hopening, hdate, hfront, hback, hstops⟩ := h.split
  obtain ⟨t, ht⟩ := Option.isSome_iff_exists.1 (Cursor.start.transition?_of_starts hopening)
  obtain ⟨htype, heffective, -⟩ := Cursor.transition?_eq_some ht
  have hother : t.type ≠ .cancel := fun hcancel => by
    simp [← htype, hcancel, EventType.startsSubscription] at hopening
  have hkind := (Cursor.admits ht).leads hother
  have hadvance : Cursor.start.advance t = ⟨t.next, false⟩ := by simp [Cursor.advance, hkind]
  generalize hrest : transitionsFrom (Cursor.start.advance t) back = rest
  have htransitions : transitions es = t :: rest := by
    rw [transitions, hsplit, transitionsFrom_append, transitionsFrom_start_of_not_starts hfront,
      through_start_of_not_starts hfront, List.nil_append, transitionsFrom, ht]
    exact congrArg (t :: ·) hrest
  have hclosed : ∀ u ∈ rest, u.type.startsSubscription = false := by
    have hnone := starts_transitionsFrom (Cursor.start.advance t) back
    rw [hrest, hback, List.map_eq_nil_iff, List.filter_eq_nil_iff] at hnone
    simpa using hnone
  have hwhole : rest.takeWhile (fun u => !u.type.startsSubscription) = rest :=
    List.takeWhile_eq_self_iff.2 fun u hu => by simp [hclosed u hu]
  have hnone : eras rest = [] := by
    rw [← List.map_eq_nil_iff (f := fun era : Era => era.opening.effective), eras_opening,
      List.map_eq_nil_iff, List.filter_eq_nil_iff]
    simpa using hclosed
  refine ⟨⟨t, rest⟩, ?_, heffective.trans hdate, ?_⟩
  · rw [htransitions, eras, if_pos (htype ▸ hopening), hwhole, hnone]
  · have hlive : (Cursor.start.advance t).isLive = true := by
      rw [hadvance]
      simp [Cursor.isLive, hkind]
    have hfind := find?_cancelled_transitionsFrom hlive hback
    rw [hrest] at hfind
    rw [Era.endDate?, Era.members, List.find?_cons, hkind.2, endOf, hstops, List.head?_filter]
    exact hfind

/-- **The state at a date** is read off the span. -/
theorem standingAt (h : OpensOnce start es) (category : Category) (t : Instant) :
    ∃ st, standingAt es category t = some st ∧ st.start = start ∧ st.finish = endOf start es ∧
      st.isCancelled = (endOf start es).any (· ≤ t) ∧
      st.isFutureCancelled = (endOf start es).any (t < ·) := by
  obtain ⟨era, heras, hopening, hend⟩ := h.eras_eq
  have hstanding := standingAt_of_eras heras category t
  rwa [hopening, hend] at hstanding

theorem isActiveAt_iff (h : OpensOnce start es) (category : Category) (t : Instant) :
    isActiveAt es category t = true ↔ (spanOf start es).Has t := by
  obtain ⟨st, hst, hstart, -, hcancelled, -⟩ := h.standingAt category t
  rw [isActiveAt, hst, Option.any_some, hstart, hcancelled, Bool.and_eq_true, decide_eq_true_eq,
    Bool.not_eq_true', Span.Has]
  refine and_congr_right fun _ => ?_
  simp only [spanOf]
  cases endOf start es with
  | none => simp
  | some f => simp [Instant.le_def, Instant.lt_def]

end OpensOnce

/-! ## Stops -/

/-- A cancellation at or behind the start that no uncancellation takes back. -/
structure IsStop (start : Instant) (es : List Event) (e : Event) : Prop where
  mem : e ∈ es
  type : e.type = .cancel
  behind : start ≤ e.effective
  stands : ∀ c ∈ es, c.type = .uncancel → e.ordering < c.ordering → e.effective < c.effective

section Stops

variable {start date : Instant} {es fs : List Event} {e c : Event} {t : Instant}

theorem mem_stops (hids : (es.map (·.id)).Nodup) : e ∈ stops start es ↔ IsStop start es e := by
  simp only [stops, List.mem_filter, mem_effectiveEvents_iff hids, Event.isSupersededBy_iff,
    Bool.and_eq_true, beq_iff_eq, decide_eq_true_eq]
  constructor
  · rintro ⟨⟨he, hkeeps⟩, htype, hle⟩
    refine ⟨he, htype, hle, fun c hc huncancel hlt => Int.not_le.1 fun hdate => ?_⟩
    exact hkeeps c hc ⟨hlt, .inr ⟨htype, huncancel, hdate⟩⟩
  · rintro ⟨he, htype, hle, hstands⟩
    refine ⟨⟨he, fun c hc => ?_⟩, htype, hle⟩
    rintro ⟨hlt, ⟨hkind, -⟩ | ⟨-, huncancel, hdate⟩⟩
    · simp [htype] at hkind
    · exact absurd (hstands c hc huncancel hlt) (Int.not_lt.2 hdate)

theorem endOf_eq_some (hids : (es.map (·.id)).Nodup) :
    endOf start es = some date ↔
      (∃ e, IsStop start es e ∧ e.effective = date) ∧
        ∀ e, IsStop start es e → date ≤ e.effective := by
  have hdates : (stops start es).Pairwise (fun a b => a.effective ≤ b.effective) :=
    (pairwise_date_effectiveEvents es).sublist List.filter_sublist
  simp only [← mem_stops hids, endOf]
  cases hstops : stops start es with
  | nil => simp
  | cons e rest =>
    rw [hstops] at hdates
    have hfirst : ∀ x ∈ e :: rest, e.effective ≤ x.effective := by
      intro x hx
      rcases List.mem_cons.1 hx with rfl | hx
      · exact Int.le_refl _
      · exact (List.pairwise_cons.1 hdates).1 x hx
    simp only [List.head?_cons, Option.map_some, Option.some.injEq]
    constructor
    · rintro rfl
      exact ⟨⟨e, by simp, rfl⟩, hfirst⟩
    · rintro ⟨⟨x, hx, rfl⟩, hleast⟩
      exact Instant.ext (Int.le_antisymm (hfirst x hx) (hleast e (by simp)))

theorem endOf_eq_none (hids : (es.map (·.id)).Nodup) :
    endOf start es = none ↔ ∀ e, ¬ IsStop start es e := by
  rw [endOf, Option.map_eq_none_iff, List.head?_eq_none_iff, List.eq_nil_iff_forall_not_mem]
  exact forall_congr' fun e => not_congr (mem_stops hids)

theorem le_of_mem_endOf (hids : (es.map (·.id)).Nodup) (h : date ∈ endOf start es) :
    start ≤ date := by
  obtain ⟨⟨e, he, rfl⟩, -⟩ := (endOf_eq_some hids).1 h
  exact he.behind

theorem exists_event_of_mem_endOf (hids : (es.map (·.id)).Nodup) (h : date ∈ endOf start es) :
    ∃ e ∈ es, e.effective = date := by
  obtain ⟨⟨e, he, rfl⟩, -⟩ := (endOf_eq_some hids).1 h
  exact ⟨e, he.mem, rfl⟩

theorem endOf_congr (hids : (es.map (·.id)).Nodup) (hids' : (fs.map (·.id)).Nodup)
    (h : ∀ e, IsStop start es e ↔ IsStop start fs e) : endOf start es = endOf start fs := by
  refine Option.ext fun date => ?_
  rw [endOf_eq_some hids, endOf_eq_some hids']
  simp only [h]

/-- A history that is cancelled for one date at most, and never uncancelled, ends there, or nowhere
if that lies in front of its start. -/
theorem endOf_of_cancels (hids : (es.map (·.id)).Nodup) (hnone : ∀ e ∈ es, e.type ≠ .uncancel)
    {finish : Option Instant}
    (h : ∀ date, (∃ e ∈ es, e.type = .cancel ∧ e.effective = date) ↔ finish = some date) :
    endOf start es = finish.filter (start ≤ ·) := by
  refine Option.ext fun date => ?_
  rw [endOf_eq_some hids, Option.filter_eq_some_iff, ← h, decide_eq_true_eq]
  constructor
  · rintro ⟨⟨e, he, rfl⟩, -⟩
    exact ⟨⟨e, he.mem, he.type, rfl⟩, he.behind⟩
  · rintro ⟨⟨e, he, htype, rfl⟩, hle⟩
    refine ⟨⟨e, ⟨he, htype, hle, fun c hc huncancel => (hnone c hc huncancel).elim⟩, rfl⟩,
      fun e' he' => ?_⟩
    have hsame := (h e.effective).1 ⟨e, he, htype, rfl⟩
    have hsame' := (h e'.effective).1 ⟨e', he'.mem, he'.type, rfl⟩
    rw [hsame, Option.some_inj] at hsame'
    exact hsame' ▸ Int.le_refl _

variable (hrise : (es ++ fs).Pairwise (fun a b => a.ordering < b.ordering))
  (hids : ((es ++ fs).map (·.id)).Nodup)

include hids in
theorem nodup_front : (es.map (·.id)).Nodup :=
  hids.sublist ((List.sublist_append_left es fs).map _)

include hids

/-- Neither cancellations nor uncancellations: the end stays. -/
theorem endOf_append_of_others (h : ∀ f ∈ fs, f.type ≠ .cancel ∧ f.type ≠ .uncancel) :
    endOf start (es ++ fs) = endOf start es := by
  refine endOf_congr hids (nodup_front hids) fun e => ?_
  constructor
  · intro he
    have hmem := (List.mem_append.1 he.mem).resolve_right fun hf => (h e hf).1 he.type
    exact ⟨hmem, he.type, he.behind, fun c hc => he.stands c (List.mem_append_left _ hc)⟩
  · intro he
    refine ⟨List.mem_append_left _ he.mem, he.type, he.behind, fun c hc huncancel => ?_⟩
    rcases List.mem_append.1 hc with hc | hc
    · exact he.stands c hc huncancel
    · exact absurd huncancel (h c hc).2

include hrise

/-- A cancellation that lies behind the start becomes the end unless there is an earlier one. -/
theorem endOf_append_cancel (hfs : fs = [c]) (htype : c.type = .cancel)
    (hstart : start ≤ c.effective) :
    endOf start (es ++ fs) = Instant.earlier (some c.effective) (endOf start es) := by
  subst hfs
  have hlast : ∀ x ∈ es, x.ordering < c.ordering := fun x hx =>
    (List.pairwise_append.1 hrise).2.2 x hx c (by simp)
  have hown : IsStop start (es ++ [c]) c := by
    refine ⟨by simp, htype, hstart, fun u hu _ hlt => ?_⟩
    rcases List.mem_append.1 hu with hu | hu
    · exact absurd (hlast u hu) (Nat.lt_asymm hlt)
    · rw [List.mem_singleton.1 hu] at hlt
      exact (Nat.lt_irrefl _ hlt).elim
  have hold {e : Event} (he : e ∈ es) : IsStop start (es ++ [c]) e ↔ IsStop start es e := by
    constructor
    · exact fun h => ⟨he, h.type, h.behind, fun u hu => h.stands u (List.mem_append_left _ hu)⟩
    · refine fun h => ⟨List.mem_append_left _ he, h.type, h.behind, fun u hu huncancel => ?_⟩
      refine h.stands u ((List.mem_append.1 hu).resolve_right fun hself => ?_) huncancel
      rw [List.mem_singleton.1 hself, htype] at huncancel
      cases huncancel
  have hcases {e : Event} (he : IsStop start (es ++ [c]) e) : e = c ∨ IsStop start es e :=
    (List.mem_append.1 he.mem).symm.imp List.mem_singleton.1 fun hmem => (hold hmem).1 he
  cases hend : endOf start es with
  | none =>
    have hnone := (endOf_eq_none (nodup_front hids)).1 hend
    refine (endOf_eq_some hids).2 ⟨⟨c, hown, rfl⟩, fun e he => ?_⟩
    rcases hcases he with rfl | he
    · exact Int.le_refl _
    · exact (hnone e he).elim
  | some f =>
    obtain ⟨⟨x, hx, hdate⟩, hleast⟩ := (endOf_eq_some (nodup_front hids)).1 hend
    rw [Instant.earlier]
    split
    next hle =>
      refine (endOf_eq_some hids).2 ⟨⟨c, hown, rfl⟩, fun e he => ?_⟩
      rcases hcases he with rfl | he
      · exact Int.le_refl _
      · exact Int.le_trans hle (hleast e he)
    next hlt =>
      refine (endOf_eq_some hids).2 ⟨⟨x, (hold hx.mem).2 hx, hdate⟩, fun e he => ?_⟩
      rcases hcases he with rfl | he
      · exact Int.le_of_lt (Int.not_le.1 hlt)
      · exact hleast e he

/-- An uncancellation removes the end unless it lies behind it. -/
theorem endOf_append_uncancel (hfs : fs = [c]) (htype : c.type = .uncancel) :
    endOf start (es ++ fs) = (endOf start es).filter (· < c.effective) := by
  subst hfs
  have hlast : ∀ x ∈ es, x.ordering < c.ordering := fun x hx =>
    (List.pairwise_append.1 hrise).2.2 x hx c (by simp)
  have hstop {e : Event} :
      IsStop start (es ++ [c]) e ↔ IsStop start es e ∧ e.effective < c.effective := by
    constructor
    · intro he
      have hmem : e ∈ es := by
        refine (List.mem_append.1 he.mem).resolve_right fun hself => ?_
        have hcancel := he.type
        rw [List.mem_singleton.1 hself, htype] at hcancel
        cases hcancel
      exact ⟨⟨hmem, he.type, he.behind, fun u hu => he.stands u (List.mem_append_left _ hu)⟩,
        he.stands c (by simp) htype (hlast e hmem)⟩
    · rintro ⟨he, hlt⟩
      refine ⟨List.mem_append_left _ he.mem, he.type, he.behind, fun u hu huncancel hlater => ?_⟩
      rcases List.mem_append.1 hu with hu | hu
      · exact he.stands u hu huncancel hlater
      · exact List.mem_singleton.1 hu ▸ hlt
  refine Option.ext fun date => ?_
  rw [endOf_eq_some hids, Option.filter_eq_some_iff, endOf_eq_some (nodup_front hids),
    decide_eq_true_eq]
  simp only [hstop]
  constructor
  · rintro ⟨⟨e, ⟨he, hlt⟩, rfl⟩, hleast⟩
    refine ⟨⟨⟨e, he, rfl⟩, fun x hx => Int.not_lt.1 fun hearlier => ?_⟩, hlt⟩
    exact Int.lt_irrefl _ (Int.lt_of_lt_of_le hearlier
      (hleast x ⟨hx, Int.lt_trans hearlier hlt⟩))
  · rintro ⟨⟨⟨e, he, rfl⟩, hleast⟩, hlt⟩
    exact ⟨⟨e, ⟨he, hlt⟩, rfl⟩, fun x hx => hleast x hx.1⟩

end Stops

namespace OpensOnce

variable {start : Instant} {es fs : List Event} {t : Instant}

theorem reached_cancelled (h : OpensOnce start es) (t : Instant) :
    (reached es t).cancelled = (endOf start es).any (· ≤ t) := by
  obtain ⟨st, hst, hstart, -, hcancelled, -⟩ := h.standingAt .base t
  by_cases hle : start ≤ t
  · rw [← hcancelled, (standingAt_spec hst (hstart ▸ hle)).2.1]
  · -- Nothing has happened yet.
    have hnone : Tenure.starts ((effectiveEvents es).filter (·.effective ≤ t)) = [] := by
      refine starts_eq_nil.2 fun e he => Bool.eq_false_iff.2 fun hstarts => hle ?_
      obtain ⟨hmem, hdate⟩ := List.mem_filter.1 he
      have hstarted : e.effective ∈ Tenure.starts es :=
        mem_starts.2 ⟨e, (mem_effectiveEvents.1 hmem).1, hstarts, rfl⟩
      rw [h.starts, List.mem_singleton] at hstarted
      simpa [hstarted] using hdate
    rw [reached, through_start_of_not_starts hnone]
    symm
    cases hend : endOf start es with
    | none => rfl
    | some f =>
      have hbehind := le_of_mem_endOf h.ids hend
      simp only [Option.any_some, Cursor.start, decide_eq_false_iff_not]
      exact fun hf => hle (Int.le_trans hbehind hf)

/-- **The target at a date** is where the moves have led, and none from the end on. -/
theorem target? (h : OpensOnce start es) {category : Category} {st : Standing}
    (hst : Tenure.standingAt es category t = some st) :
    st.target? = if (endOf start es).any (· ≤ t) then none else courseAt es t := by
  rw [standingAt_target? hst, h.reached_cancelled]
  by_cases hcancelled : (endOf start es).any (· ≤ t) = true
  · rw [if_pos hcancelled, if_pos hcancelled]
  · rw [if_neg hcancelled, if_neg hcancelled]
    rw [← h.reached_cancelled, Bool.not_eq_true] at hcancelled
    exact target_reached h.ids hcancelled

theorem append (h : OpensOnce start es) (hids : ((es ++ fs).map (·.id)).Nodup)
    (hrise : (es ++ fs).Pairwise (fun a b => a.ordering < b.ordering))
    (hfs : Tenure.starts fs = []) : OpensOnce start (es ++ fs) where
  ids := hids
  ordered := by
    have hclosed : ∀ f ∈ fs, f.type.startsSubscription = false := starts_eq_nil.1 hfs
    refine hrise.imp₂ (fun a b => And.intro) (List.pairwise_append.2
      ⟨h.ordered.imp And.right, ?_, fun _ _ f hf _ => hclosed f hf⟩)
    exact List.pairwise_of_forall_mem_list fun _ _ f hf _ => hclosed f hf
  starts := by rw [starts_append, h.starts, hfs, List.append_nil]

end OpensOnce

end Tenure
