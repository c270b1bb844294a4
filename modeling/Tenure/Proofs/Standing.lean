import Mathlib.Data.List.Induction
import Tenure.Proofs.Starts

/-!
# The state is a fold

The state at a date is read off the whole list of transitions: the era that has begun by then, its
first cancellation, the last transition so far. It comes to the same to run a cursor through the
effective events up to the date and to look at nothing else (`standingAt_spec`). The cursor is what
proofs about growing histories work with, since it can be run on from where it stopped.
-/

namespace Tenure

/-! ## Running a cursor -/

namespace Cursor

/-- The cursor behind one more event. -/
def after (c : Cursor) (e : Event) : Cursor :=
  match c.transition? e with
  | none => c
  | some t => c.advance t

/-- The cursor behind more events. -/
def through (c : Cursor) (es : List Event) : Cursor := es.foldl after c

variable {c : Cursor} {e : Event} {es fs : List Event}

@[simp] theorem through_nil (c : Cursor) : c.through [] = c := rfl

theorem through_cons (c : Cursor) (e : Event) (es : List Event) :
    c.through (e :: es) = (c.after e).through es := rfl

theorem through_append (c : Cursor) (es fs : List Event) :
    c.through (es ++ fs) = (c.through es).through fs :=
  List.foldl_append

theorem through_singleton (c : Cursor) (e : Event) : c.through [e] = c.after e := rfl

theorem after_congr {f : Event} (h : e.payload = f.payload) : c.after e = c.after f := by
  unfold after transition?
  rw [h]
  cases c.destination? f.payload with
  | none => rfl
  | some d => rfl

theorem through_congr (h : es.map (·.payload) = fs.map (·.payload)) (c : Cursor) :
    c.through es = c.through fs := by
  induction es generalizing fs c with
  | nil => rw [List.map_eq_nil_iff.1 h.symm]
  | cons e es ih =>
    obtain ⟨f, fs, rfl, hfe, hrest⟩ := List.map_eq_cons_iff.1 h.symm
    rw [through_cons, through_cons, after_congr hfe.symm, ih hrest.symm]

end Cursor

theorem transitionsFrom_append (c : Cursor) (es fs : List Event) :
    transitionsFrom c (es ++ fs) = transitionsFrom c es ++ transitionsFrom (c.through es) fs := by
  induction es generalizing c with
  | nil => rfl
  | cons e es ih =>
    rw [List.cons_append, transitionsFrom, transitionsFrom, Cursor.through_cons, Cursor.after]
    cases c.transition? e with
    | none => exact ih c
    | some t => simp only [ih, List.cons_append]

theorem exists_transition?_of_mem {c : Cursor} {es : List Event} {t : Transition}
    (h : t ∈ transitionsFrom c es) : ∃ c' : Cursor, ∃ e ∈ es, c'.transition? e = some t := by
  induction es generalizing c with
  | nil => cases h
  | cons e es ih =>
    rw [transitionsFrom] at h
    cases ht : c.transition? e with
    | none =>
      rw [ht] at h
      obtain ⟨c', f, hf, hmade⟩ := ih h
      exact ⟨c', f, List.mem_cons_of_mem _ hf, hmade⟩
    | some u =>
      rw [ht] at h
      rcases List.mem_cons.1 h with rfl | h
      · exact ⟨c, e, List.mem_cons_self, ht⟩
      · obtain ⟨c', f, hf, hmade⟩ := ih h
        exact ⟨c', f, List.mem_cons_of_mem _ hf, hmade⟩

/-- What an event and the transition that it makes have in common. -/
structure Mark where
  event : EventId
  type : EventType
  effective : Instant
  ordering : Nat
  deriving DecidableEq

def Event.mark (e : Event) : Mark := ⟨e.id, e.type, e.effective, e.ordering⟩

def Transition.mark (t : Transition) : Mark := ⟨t.event, t.type, t.effective, t.ordering⟩

theorem Cursor.mark_of_transition? {c : Cursor} {e : Event} {t : Transition}
    (h : c.transition? e = some t) : t.mark = e.mark := by
  obtain ⟨_, -, rfl⟩ := Option.map_eq_some_iff.1 h
  rfl

theorem marks_transitionsFrom (c : Cursor) (es : List Event) :
    ((transitionsFrom c es).map (·.mark)).Sublist (es.map (·.mark)) := by
  induction es generalizing c with
  | nil => exact .slnil
  | cons e es ih =>
    rw [transitionsFrom]
    cases ht : c.transition? e with
    | none => exact (ih c).cons _
    | some t =>
      rw [List.map_cons, List.map_cons, Cursor.mark_of_transition? ht]
      exact (ih _).cons_cons _

theorem pairwise_transitionsFrom {R : Mark → Mark → Prop} {es : List Event}
    (h : es.Pairwise fun a b => R a.mark b.mark) (c : Cursor) :
    (transitionsFrom c es).Pairwise fun a b => R a.mark b.mark :=
  List.pairwise_map.1 ((List.pairwise_map.2 h).sublist (marks_transitionsFrom c es))

theorem exists_mark_eq {c : Cursor} {es : List Event} {t : Transition}
    (h : t ∈ transitionsFrom c es) : ∃ e ∈ es, e.mark = t.mark :=
  List.mem_map.1 ((marks_transitionsFrom c es).subset (List.mem_map_of_mem h))

theorem exists_event_of_transition {c : Cursor} {es : List Event} {t : Transition}
    (h : t ∈ transitionsFrom c es) : ∃ e ∈ es, e.effective = t.effective := by
  obtain ⟨e, he, hmark⟩ := exists_mark_eq h
  exact ⟨e, he, congrArg (·.effective) hmark⟩

/-! ## What one step can do -/

/-- What a transition made at a cursor is like. -/
structure Cursor.Admits (c : Cursor) (t : Transition) : Prop where
  previous : t.previous = c.previous
  live : t.type.startsSubscription = false → c.isLive = true
  cancels : t.type = .cancel → t.next = none ∧ t.activity = .cancelled
  leads : t.type ≠ .cancel → t.next.isSome = true ∧ t.activity = .active
  phase : t.type = .phase → ∃ p name, c.target = some p ∧ t.next = some { p with phase := name }
  moves : t.type ≠ .uncancel ∧ t.type ≠ .migrateBilling

theorem Cursor.admits {c : Cursor} {e : Event} {t : Transition} (h : c.transition? e = some t) :
    c.Admits t := by
  obtain ⟨⟨next, activity⟩, hdest, rfl⟩ := Option.map_eq_some_iff.1 h
  cases hp : e.payload <;> simp only [hp, destination?] at hdest
  case create | reCreate | transfer | migrateEntitlement =>
    cases hdest
    constructor <;> simp [Event.type, hp, Payload.type, EventType.startsSubscription]
  case change =>
    obtain ⟨hlive, hdest⟩ := Option.ite_none_right_eq_some.1 hdest
    cases hdest
    constructor <;> simp [Event.type, hp, Payload.type, hlive]
  case phase name =>
    obtain ⟨hlive, hdest⟩ := Option.ite_none_right_eq_some.1 hdest
    cases hdest
    obtain ⟨target, htarget⟩ := Option.isSome_iff_exists.1 (Bool.and_eq_true_iff.1 hlive).1
    constructor <;> simp [Event.type, hp, Payload.type, hlive, htarget]
  case cancel =>
    obtain ⟨hlive, hdest⟩ := Option.ite_none_right_eq_some.1 hdest
    cases hdest
    constructor <;> simp [Event.type, hp, Payload.type, hlive]
  case uncancel | migrateBilling => cases hdest

/-- Only a start gets a cursor going that is not live. -/
theorem Cursor.Admits.starts {c : Cursor} {t : Transition} (h : c.Admits t)
    (hdead : c.isLive = false) : t.type.startsSubscription = true := by
  rw [← Bool.not_eq_false]
  intro hno
  exact Bool.false_ne_true (hdead.symm.trans (h.live hno))

theorem Cursor.Admits.type_of_cancelled {c : Cursor} {t : Transition} (h : c.Admits t)
    (hactivity : t.activity = .cancelled) : t.type = .cancel := by
  by_contra hother
  rw [(h.leads hother).2] at hactivity
  cases hactivity

theorem Cursor.Admits.advance_eq {c : Cursor} {a : Transition} (h : c.Admits a) : c.advance a =
    if a.type = .cancel then ⟨c.previous, true⟩ else ⟨a.next, false⟩ := by
  by_cases hcancel : a.type = .cancel
  · rw [if_pos hcancel, advance, (h.cancels hcancel).2]
  · rw [if_neg hcancel, advance, (h.leads hcancel).2]

theorem exists_admits_of_mem {c : Cursor} {es : List Event} {t : Transition}
    (h : t ∈ transitionsFrom c es) : ∃ c' : Cursor, c'.Admits t := by
  obtain ⟨c', e, -, ht⟩ := exists_transition?_of_mem h
  exact ⟨c', Cursor.admits ht⟩

/-! ## Eras of a longer history -/

theorem eras_append_of_nil {history more : List Transition} (h : eras history = []) :
    eras (history ++ more) = eras more := by
  induction history with
  | nil => rfl
  | cons t ts ih =>
    rw [List.cons_append, eras]
    rw [eras] at h
    split at h
    · cases h
    next hstart =>
      rw [if_neg hstart]
      exact ih h

/-- Further transitions go to the last era, up to the next start. -/
theorem eras_append {history more : List Transition} {front : List Era} {era : Era}
    (h : eras history = front ++ [era]) :
    eras (history ++ more) =
      front ++ ⟨era.opening, era.rest ++ more.takeWhile fun t => !t.type.startsSubscription⟩ ::
        eras more := by
  induction history generalizing front with
  | nil => simp [eras] at h
  | cons t ts ih =>
    rw [List.cons_append, eras]
    rw [eras] at h
    by_cases hstart : t.type.startsSubscription = true
    · rw [if_pos hstart] at h ⊢
      cases front with
      | nil =>
        -- The last era is the first, so no later transition starts one.
        rw [List.nil_append, List.cons.injEq] at h
        obtain ⟨rfl, hts⟩ := h
        have hrest : ∀ u ∈ ts, (!u.type.startsSubscription) = true := by
          intro u hu
          have hnone := eras_opening ts
          rw [hts, List.map_nil, eq_comm, List.map_eq_nil_iff, List.filter_eq_nil_iff] at hnone
          simpa using hnone u hu
        rw [eras_append_of_nil hts, List.takeWhile_append_of_pos hrest,
          List.takeWhile_eq_self_iff.2 hrest]
        rfl
      | cons first front =>
        rw [List.cons_append, List.cons.injEq] at h
        obtain ⟨rfl, hts⟩ := h
        have hlater : ∃ u ∈ ts, u.type.startsSubscription = true := by
          have hopenings := eras_opening ts
          by_contra hnone
          have : ts.filter (·.type.startsSubscription) = [] :=
            List.filter_eq_nil_iff.2 fun u hu hu' => hnone ⟨u, hu, hu'⟩
          rw [hts, this] at hopenings
          simp at hopenings
        have hsame : (ts ++ more).takeWhile (fun u => !u.type.startsSubscription) =
            ts.takeWhile fun u => !u.type.startsSubscription := by
          obtain ⟨u, hu, hu'⟩ := hlater
          rw [List.takeWhile_append, if_neg]
          intro hlength
          have hall := List.takeWhile_eq_self_iff.1
            ((List.takeWhile_prefix _).eq_of_length hlength) u hu
          simp [hu'] at hall
        rw [ih hts, hsame]
        rfl
    · rw [if_neg hstart] at h ⊢
      exact ih h

/-! ## What the cursor knows of the history -/

namespace Era

/-- The era has a cancellation. -/
def isEnded (era : Era) : Bool := era.members.any (·.activity == .cancelled)

theorem endDate?_isSome (era : Era) : era.endDate?.isSome = era.isEnded := by
  rw [Bool.eq_iff_iff, endDate?, isEnded, Option.isSome_map, List.find?_isSome, List.any_eq_true]

end Era

/-- The target that a history leads to. -/
def lastTarget (history : List Transition) : Option Target := history.getLast?.bind (·.next)

/-- A cursor that has run through events, beside the transitions they made. -/
structure Cursor.Tells (c : Cursor) (history : List Transition) : Prop where
  /-- A target is there as soon as there is a start. -/
  started : c.target.isSome = true ↔ eras history ≠ []
  cancelled : ∀ front era, eras history = front ++ [era] → era.isEnded = c.cancelled
  target : c.cancelled = false → c.target = lastTarget history

theorem Cursor.Tells.of_eras {c : Cursor} {history : List Transition} {front : List Era} {era : Era}
    (heras : eras history = front ++ [era]) (htarget : c.target.isSome = true)
    (hended : era.isEnded = c.cancelled)
    (hlast : c.cancelled = false → c.target = lastTarget history) : c.Tells history where
  started := by simp [htarget, heras]
  cancelled := by
    intro front' era' hera'
    obtain ⟨-, hera⟩ := List.append_inj' (heras.symm.trans hera') rfl
    cases hera
    exact hended
  target := hlast

theorem eras_concat_of_starts {t : Transition} (history : List Transition)
    (ht : t.type.startsSubscription = true) :
    ∃ front, eras (history ++ [t]) = front ++ [⟨t, []⟩] := by
  rcases List.eq_nil_or_concat' (eras history) with hnil | ⟨front, era, hfront⟩
  · exact ⟨[], by simp [eras_append_of_nil hnil, eras, ht]⟩
  · refine ⟨front ++ [era], ?_⟩
    rw [eras_append hfront]
    simp [eras, ht]

theorem Cursor.Tells.advance {c : Cursor} {history : List Transition} (h : c.Tells history)
    {e : Event} {t : Transition} (ht : c.transition? e = some t) :
    (c.advance t).Tells (history ++ [t]) := by
  have hadmits := admits ht
  have hlast : lastTarget (history ++ [t]) = t.next := by simp [lastTarget]
  have hadvance := hadmits.advance_eq
  cases hstart : t.type.startsSubscription with
  | true =>
    -- A new era opens.
    have hother : t.type ≠ .cancel := fun htype => by
      simp [htype, EventType.startsSubscription] at hstart
    obtain ⟨hnext, hactivity⟩ := hadmits.leads hother
    obtain ⟨front, heras⟩ := eras_concat_of_starts history hstart
    rw [hadvance, if_neg hother]
    exact .of_eras heras hnext (by simp [Era.isEnded, Era.members, hactivity]) fun _ => hlast.symm
  | false =>
    -- The last era goes on.
    have hlive := hadmits.live hstart
    simp only [isLive, Bool.and_eq_true, Bool.not_eq_true'] at hlive
    obtain ⟨htarget, hcancelled⟩ := hlive
    obtain ⟨front, era, hfront⟩ :=
      (List.eq_nil_or_concat' (eras history)).resolve_left (h.started.1 htarget)
    have hended := h.cancelled front era hfront
    have heras : eras (history ++ [t]) = front ++ [⟨era.opening, era.rest ++ [t]⟩] := by
      rw [eras_append hfront]
      simp [eras, hstart]
    have hisEnded : Era.isEnded ⟨era.opening, era.rest ++ [t]⟩ = (t.activity == .cancelled) := by
      rw [hcancelled] at hended
      simp only [Era.isEnded, Era.members, List.any_cons, List.any_append, List.any_nil,
        Bool.or_false, Bool.or_eq_false_iff] at hended ⊢
      rw [hended.1, hended.2, Bool.false_or, Bool.false_or]
    by_cases hcancel : t.type = .cancel
    · rw [hadvance, if_pos hcancel, previous, hcancelled]
      refine .of_eras heras htarget ?_ fun hrunning => by cases hrunning
      rw [hisEnded, (hadmits.cancels hcancel).2]
      rfl
    · rw [hadvance, if_neg hcancel]
      refine .of_eras heras (hadmits.leads hcancel).1 ?_ fun _ => hlast.symm
      rw [hisEnded, (hadmits.leads hcancel).2]
      rfl

theorem tells_through (es : List Event) :
    (Cursor.start.through es).Tells (transitionsFrom .start es) := by
  induction es using List.reverseRecOn with
  | nil =>
    exact ⟨by simp [Cursor.start, transitionsFrom, eras], by simp [transitionsFrom, eras],
      fun _ => rfl⟩
  | append_singleton es e ih =>
    rw [Cursor.through_append, transitionsFrom_append, Cursor.through_singleton, Cursor.after]
    cases ht : (Cursor.start.through es).transition? e with
    | none => simpa [transitionsFrom, ht] using ih
    | some t => simpa [transitionsFrom, ht] using ih.advance ht

/-! ## The state at a date -/

theorem pairwise_date_effectiveEvents (es : List Event) :
    (effectiveEvents es).Pairwise (fun a b => a.effective ≤ b.effective) := by
  refine (pairwise_sortBy Event.le_total Event.le_trans _).imp fun {a b} h => ?_
  simp only [Event.le, Bool.or_eq_true, Bool.and_eq_true, decide_eq_true_eq, beq_iff_eq,
    Instant.lt_def, Instant.ext_iff] at h
  rw [Instant.le_def]
  omega

theorem filter_append_filter_of_date {es : List Event}
    (h : es.Pairwise (fun a b => a.effective ≤ b.effective)) (date : Instant) :
    es.filter (·.effective ≤ date) ++ es.filter (date < ·.effective) = es := by
  have hnot : es.filter (date < ·.effective) = es.filter fun e => !decide (e.effective ≤ date) :=
    List.filter_congr fun e _ => (decide_eq_decide.2 Int.not_le.symm).trans decide_not
  rw [hnot]
  exact filter_append_filter_not (h.imp fun hle hdate =>
    decide_eq_true (Int.le_trans hle (of_decide_eq_true hdate)))

/-- The cursor behind the effective events up to a date. -/
def reached (es : List Event) (date : Instant) : Cursor :=
  Cursor.start.through ((effectiveEvents es).filter (·.effective ≤ date))

/-- The transitions that the effective events up to a date make. -/
def transitionsUpTo (es : List Event) (date : Instant) : List Transition :=
  transitionsFrom .start ((effectiveEvents es).filter (·.effective ≤ date))

theorem tells_transitionsUpTo (es : List Event) (date : Instant) :
    (reached es date).Tells (transitionsUpTo es date) :=
  tells_through _

theorem le_of_mem_transitionsUpTo {es : List Event} {date : Instant} {t : Transition}
    (h : t ∈ transitionsUpTo es date) : t.effective ≤ date := by
  obtain ⟨e, he, hdate⟩ := exists_event_of_transition h
  rw [← hdate]
  simpa using (List.mem_filter.1 he).2

theorem transitions_split (es : List Event) (date : Instant) :
    ∃ future, transitions es = transitionsUpTo es date ++ future ∧
      ∀ t ∈ future, date < t.effective := by
  refine ⟨transitionsFrom (reached es date) ((effectiveEvents es).filter (date < ·.effective)), ?_,
    fun t ht => ?_⟩
  · rw [transitions]
    nth_rewrite 1 [← filter_append_filter_of_date (pairwise_date_effectiveEvents es) date]
    exact transitionsFrom_append _ _ _
  · obtain ⟨e, he, hdate⟩ := exists_event_of_transition ht
    rw [← hdate]
    simpa using (List.mem_filter.1 he).2

theorem filter_transitions (es : List Event) (date : Instant) :
    (transitions es).filter (·.effective ≤ date) = transitionsUpTo es date := by
  obtain ⟨future, hsplit, hfuture⟩ := transitions_split es date
  have hnone : future.filter (·.effective ≤ date) = [] := List.filter_eq_nil_iff.2 fun t ht hle =>
    absurd (hfuture t ht) (Int.not_lt.2 (of_decide_eq_true hle))
  have hall : (transitionsUpTo es date).filter (·.effective ≤ date) = transitionsUpTo es date :=
    List.filter_eq_self.2 fun t ht => decide_eq_true (le_of_mem_transitionsUpTo ht)
  rw [hsplit, List.filter_append, hnone, hall, List.append_nil]

theorem findRev?_eq_getLast?_filter {α : Type} (p : α → Bool) (xs : List α) :
    xs.findRev? p = (xs.filter p).getLast? := by
  rw [List.findRev?_eq_find?_reverse, ← List.head?_filter, List.filter_reverse, List.head?_reverse]

theorem findRev?_transitions (es : List Event) (date : Instant) :
    (transitions es).findRev? (·.effective ≤ date) = (transitionsUpTo es date).getLast? := by
  rw [findRev?_eq_getLast?_filter, filter_transitions]

theorem findRev?_append_of_forall {α : Type} {p : α → Bool} {xs ys : List α}
    (h : ∀ y ∈ ys, p y = false) : (xs ++ ys).findRev? p = xs.findRev? p := by
  have hnone : ys.reverse.find? p = none :=
    List.find?_eq_none.2 fun y hy => by simp [h y (List.mem_reverse.1 hy)]
  rw [List.findRev?_eq_find?_reverse, List.findRev?_eq_find?_reverse, List.reverse_append,
    List.find?_append, hnone, Option.none_or]

theorem findRev?_concat {α : Type} {p : α → Bool} {xs : List α} {x : α} (h : p x = true) :
    (xs ++ [x]).findRev? p = some x := by
  rw [List.findRev?_eq_find?_reverse, List.reverse_append]
  simp [h]

theorem Standing.target?_eq {st : Standing} {target : Option Target}
    (hplan : st.plan = target.map (·.plan)) (hphase : st.phase = target.map (·.phase))
    (hlist : st.priceList = target.map (·.priceList)) : st.target? = target := by
  unfold Standing.target?
  rw [hplan, hphase, hlist]
  cases target <;> rfl

theorem sublist_of_mem_eras {history : List Transition} {era : Era} (h : era ∈ eras history) :
    era.members.Sublist history := by
  induction history with
  | nil => cases h
  | cons u us ih =>
    rw [eras] at h
    by_cases hstart : u.type.startsSubscription = true
    · rw [if_pos hstart] at h
      rcases List.mem_cons.1 h with rfl | h
      · exact (List.takeWhile_sublist _).cons_cons u
      · exact (ih h).cons u
    · rw [if_neg hstart] at h
      exact (ih h).cons u

theorem mem_of_mem_eras {history : List Transition} {era : Era} (h : era ∈ eras history) :
    ∀ t ∈ era.members, t ∈ history :=
  fun _ ht => (sublist_of_mem_eras h).subset ht

/-- Further transitions end an era that has not ended yet. -/
theorem Era.endDate?_append (era : Era) (later : List Transition) :
    Era.endDate? ⟨era.opening, era.rest ++ later⟩ =
      era.endDate?.or ((later.find? (·.activity == .cancelled)).map (·.effective)) := by
  have hmembers : Era.members ⟨era.opening, era.rest ++ later⟩ = era.members ++ later := rfl
  rw [endDate?, hmembers, List.find?_append, Option.map_or]
  rfl

/-- The end of an era that lies behind a date does not count at that date. -/
theorem Era.endDate?_any_le {era : Era} {later : List Transition} {date : Instant}
    (hpast : ∀ t ∈ era.members, t.effective ≤ date) (hlater : ∀ t ∈ later, date < t.effective) :
    (Era.endDate? ⟨era.opening, era.rest ++ later⟩).any (· ≤ date) = era.isEnded := by
  rw [endDate?_append, ← endDate?_isSome]
  cases hend : era.endDate? with
  | some f =>
    obtain ⟨t, hfind, rfl⟩ := Option.map_eq_some_iff.1 hend
    simp [hpast t (List.mem_of_find?_eq_some hfind)]
  | none =>
    rw [Option.none_or]
    cases hfind : later.find? (·.activity == .cancelled) with
    | none => rfl
    | some t =>
      have hdate : ¬ t.effective ≤ date :=
        Int.not_le.2 (hlater t (List.mem_of_find?_eq_some hfind))
      simp [hdate]

/-- The era at a date is the last one that has begun by then, with the transitions that come later
up to the next start. -/
theorem eraAt?_of_eras {past future : List Transition} {date : Instant} {front : List Era}
    {era : Era} (heras : eras past = front ++ [era]) (hpast : ∀ t ∈ past, t.effective ≤ date)
    (hfuture : ∀ t ∈ future, date < t.effective) :
    eraAt? (past ++ future) date = some ⟨era.opening,
      era.rest ++ future.takeWhile fun t => !t.type.startsSubscription⟩ := by
  have hlast : era ∈ eras past := by simp [heras]
  have hopening : era.opening.effective ≤ date :=
    hpast _ (mem_of_mem_eras hlast _ List.mem_cons_self)
  have hlater : ∀ e ∈ eras future, decide (e.opening.effective ≤ date) = false := by
    intro e he
    have := hfuture _ (mem_of_mem_eras he e.opening List.mem_cons_self)
    simpa [Instant.le_def, Instant.lt_def] using this
  rw [eraAt?, eras_append heras, ← List.singleton_append, ← List.append_assoc,
    findRev?_append_of_forall hlater, findRev?_concat (by simpa using hopening)]

/-- Once a subscription has started, its era is the last one so far, with what comes later of it. -/
theorem eraAt?_of_started {es : List Event} {asOf : Instant}
    (h : (reached es asOf).target.isSome = true) :
    ∃ front era later, eras (transitionsUpTo es asOf) = front ++ [era] ∧
      eraAt? (transitions es) asOf = some ⟨era.opening, era.rest ++ later⟩ ∧
        ∀ t ∈ later, asOf < t.effective := by
  obtain ⟨future, hsplit, hfuture⟩ := transitions_split es asOf
  have hstarted := (tells_transitionsUpTo es asOf).started.1 h
  obtain ⟨front, era, hfront⟩ := (List.eq_nil_or_concat' _).resolve_left hstarted
  have hera := eraAt?_of_eras hfront (fun _ => le_of_mem_transitionsUpTo) hfuture
  rw [← hsplit] at hera
  exact ⟨front, era, _, hfront, hera, fun t ht => hfuture t ((List.takeWhile_prefix _).subset ht)⟩

theorem standingAt_of_started {es : List Event} (category : Category) {asOf : Instant}
    (h : (reached es asOf).target.isSome = true) :
    ∃ st, standingAt es category asOf = some st ∧ st.start ≤ asOf ∧
      st.isCancelled = (reached es asOf).cancelled ∧
      ((reached es asOf).cancelled = false → st.target? = (reached es asOf).target) := by
  have htells := tells_transitionsUpTo es asOf
  obtain ⟨front, era, later, hfront, hera, hlater⟩ := eraAt?_of_started h
  have hlast : era ∈ eras (transitionsUpTo es asOf) := by simp [hfront]
  have hmembers : ∀ t ∈ era.members, t.effective ≤ asOf := fun t ht =>
    le_of_mem_transitionsUpTo (mem_of_mem_eras hlast t ht)
  refine ⟨_, by rw [standingAt, hera]; rfl, hmembers _ List.mem_cons_self, ?_, fun hlive => ?_⟩
  · rw [← htells.cancelled front era hfront]
    exact Era.endDate?_any_le hmembers hlater
  · have htarget : (transitionsUpTo es asOf).getLast?.bind (·.next) = (reached es asOf).target :=
      (htells.target hlive).symm
    rw [← htarget, ← findRev?_transitions]
    exact Standing.target?_eq rfl rfl rfl

theorem standingAt_of_not_started {es : List Event} {category : Category} {asOf : Instant}
    {st : Standing} (h : standingAt es category asOf = some st)
    (htarget : (reached es asOf).target = none) : asOf < st.start ∧ st.isCancelled = false := by
  obtain ⟨future, hsplit, hfuture⟩ := transitions_split es asOf
  have hnone : eras (transitionsUpTo es asOf) = [] := by
    by_contra hne
    simpa [htarget] using (tells_transitionsUpTo es asOf).started.2 hne
  obtain ⟨era, hera, rfl⟩ := Option.map_eq_some_iff.1 h
  have hmem : era ∈ eras future := by
    rw [← eras_append_of_nil hnone, ← hsplit]
    exact mem_of_eraAt? hera
  have hlater : ∀ t ∈ era.members, asOf < t.effective := fun t ht =>
    hfuture t (mem_of_mem_eras hmem t ht)
  refine ⟨hlater _ List.mem_cons_self, ?_⟩
  show era.endDate?.any (· ≤ asOf) = false
  rw [Era.endDate?]
  cases hfind : era.members.find? (·.activity == .cancelled) with
  | none => rfl
  | some t => exact decide_eq_false (Int.not_le.2 (hlater t (List.mem_of_find?_eq_some hfind)))

/-- A state that has started by the date is that of the cursor. -/
theorem standingAt_spec {es : List Event} {category : Category} {asOf : Instant} {st : Standing}
    (h : standingAt es category asOf = some st) (hstart : st.start ≤ asOf) :
    (reached es asOf).target.isSome = true ∧ st.isCancelled = (reached es asOf).cancelled ∧
      ((reached es asOf).cancelled = false → st.target? = (reached es asOf).target) := by
  have hstarted : (reached es asOf).target.isSome = true := by
    rw [Option.isSome_iff_ne_none]
    intro hnone
    exact absurd hstart (Int.not_le.2 (standingAt_of_not_started h hnone).1)
  obtain ⟨st', hst', -, hcancelled, htarget⟩ := standingAt_of_started category hstarted
  rw [h] at hst'
  cases hst'
  exact ⟨hstarted, hcancelled, htarget⟩

end Tenure
