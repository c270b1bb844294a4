import Tenure.Proofs.Rewriting
import Tenure.Proofs.Spans

/-!
# The state is coherent

The state at a date is put together from four searches through the transitions: for the era that has
begun, for the cancellation in it, for the last transition so far and for the next one. They look at
different parts of the history, and the events may come in any order and make no sense at all. Still
the results fit together (`standing_coheres`).

What carries this is the order of the transitions by date, and that behind a cancellation nothing
happens but a new start. So the cancellation of an era is the last transition in it
(`endDate?_of_cancelled`), and a subscription is cancelled if the last transition so far is a
cancellation (`cancelled_reached_eq`).
-/

namespace Tenure

/-! ## The order of the transitions -/

theorem pairwise_date_transitions (es : List Event) :
    (transitions es).Pairwise (fun a b => a.effective ≤ b.effective) :=
  pairwise_transitionsFrom (R := fun a b => a.effective ≤ b.effective)
    (pairwise_date_effectiveEvents es) .start

theorem Era.opening_le_of_mem_endDate? {history : List Transition} {era : Era} {date : Instant}
    (hdates : history.Pairwise (fun a b => a.effective ≤ b.effective)) (h : era ∈ eras history)
    (hdate : date ∈ era.endDate?) : era.opening.effective ≤ date := by
  obtain ⟨t, hfind, rfl⟩ := Option.map_eq_some_iff.1 hdate
  have hmembers := hdates.sublist (sublist_of_mem_eras h)
  rcases List.mem_cons.1 (List.mem_of_find?_eq_some hfind) with rfl | ht
  · exact Int.le_refl _
  · exact (List.pairwise_cons.1 hmembers).1 t ht

/-! ## The last transition so far -/

/-- Events leave a cursor cancelled if the last transition that they make cancels. -/
theorem cancelled_through_eq (es : List Event) :
    (Cursor.start.through es).cancelled =
      (transitionsFrom .start es).getLast?.any (·.activity == .cancelled) := by
  induction es using List.reverseRecOn with
  | nil => rfl
  | append_singleton es e ih =>
    rw [Cursor.through_append, Cursor.through_singleton, Cursor.after, transitionsFrom_append,
      transitionsFrom]
    cases ht : (Cursor.start.through es).transition? e with
    | none => simpa [transitionsFrom] using ih
    | some t => cases hactivity : t.activity <;> simp [transitionsFrom, Cursor.advance, hactivity]

theorem endDate?_of_cancelled {es : List Event} (h : (Cursor.start.through es).cancelled = true)
    {front : List Era} {era : Era} (heras : eras (transitionsFrom .start es) = front ++ [era]) :
    era.endDate? = (transitionsFrom .start es).getLast?.map (·.effective) := by
  induction es using List.reverseRecOn with
  | nil => cases h
  | append_singleton es e ih =>
    rw [Cursor.through_append, Cursor.through_singleton, Cursor.after] at h
    rw [transitionsFrom_append, transitionsFrom] at heras ⊢
    cases ht : (Cursor.start.through es).transition? e with
    | none =>
      rw [ht] at h heras
      simp only [transitionsFrom, List.append_nil] at heras ⊢
      exact ih h heras
    | some t =>
      rw [ht] at h heras
      have hactivity : t.activity = .cancelled := by
        cases hact : t.activity with
        | active => simp [Cursor.advance, hact] at h
        | cancelled => rfl
      obtain ⟨htype, -, -, hlive⟩ := Cursor.cancels ht hactivity
      simp only [Cursor.isLive, Bool.and_eq_true, Bool.not_eq_true'] at hlive
      -- The cancellation goes to the last era before it, which has not ended yet.
      have htells := tells_through es
      obtain ⟨front', era', hera'⟩ :=
        (List.eq_nil_or_concat' _).resolve_left (htells.started.1 hlive.1)
      have hopen : era'.endDate? = none := by
        rw [← Option.not_isSome_iff_eq_none, era'.endDate?_isSome, htells.cancelled _ _ hera',
          hlive.2]
        exact Bool.false_ne_true
      rw [transitionsFrom, eras_append hera'] at heras
      simp only [eras, List.takeWhile, htype, EventType.startsSubscription, Bool.not_false,
        if_false, Bool.false_eq_true] at heras
      obtain ⟨-, hera⟩ := List.append_inj' heras rfl
      obtain rfl := (List.cons.inj hera).1
      rw [Era.endDate?_append, hopen]
      simp [transitionsFrom, hactivity]

theorem cancelled_reached_eq (es : List Event) (t : Instant) :
    (reached es t).cancelled =
      (transitionsUpTo es t).getLast?.any (·.activity == .cancelled) :=
  cancelled_through_eq _

/-- A subscription that is cancelled at a date was cancelled by the last transition so far. -/
theorem exists_cancel_of_reached {es : List Event} {t : Instant}
    (h : (reached es t).cancelled = true) :
    ∃ u, (transitionsUpTo es t).getLast? = some u ∧ u.type = .cancel ∧
      u.previous.isSome = true := by
  rw [cancelled_reached_eq, Option.any_eq_true] at h
  obtain ⟨u, hlast, hactivity⟩ := h
  obtain ⟨c, e, -, hmade⟩ := exists_transition?_of_mem (List.mem_of_getLast? hlast)
  obtain ⟨htype, -, hprevious, hlive⟩ := Cursor.cancels hmade (beq_iff_eq.1 hactivity)
  refine ⟨u, hlast, htype, ?_⟩
  rw [hprevious]
  exact (Bool.and_eq_true_iff.1 hlive).1

theorem standingAt_finish_of_cancelled {es : List Event} {category : Category} {t : Instant}
    {st : Standing} (h : standingAt es category t = some st) (hcancelled : st.isCancelled = true) :
    st.finish = (transitionsUpTo es t).getLast?.map (·.effective) := by
  rw [standingAt_isCancelled h] at hcancelled
  have hstarted : (reached es t).target.isSome = true := by
    rw [Option.isSome_iff_ne_none]
    intro hnone
    rw [reached_cancelled_of_not_started hnone] at hcancelled
    cases hcancelled
  obtain ⟨front, era, later, hfront, hera, -⟩ := eraAt?_of_started hstarted
  obtain ⟨_, hera', rfl⟩ := Option.map_eq_some_iff.1 h
  cases hera.symm.trans hera'
  have hended : era.endDate?.isSome = true := by
    rw [era.endDate?_isSome, (tells_transitionsUpTo es t).cancelled _ _ hfront, hcancelled]
  obtain ⟨f, hf⟩ := Option.isSome_iff_exists.1 hended
  show Era.endDate? ⟨era.opening, era.rest ++ later⟩ = _
  rw [Era.endDate?_append, hf, Option.some_or, ← hf]
  exact endDate?_of_cancelled hcancelled hfront

/-! ## Coherence -/

namespace Standing

/-- The state fits the history that it is read off as of `t`, and its parts fit one another. -/
structure Coheres (st : Standing) (history : List Transition) (t : Instant) : Prop where
  together : st.phase.isSome = st.plan.isSome ∧ st.priceList.isSome = st.plan.isSome
  active : st.plan.isSome = true ↔ st.start ≤ t ∧ st.isCancelled = false
  apart : ¬ (st.isCancelled = true ∧ st.isFutureCancelled = true)
  ordered : ∀ f ∈ st.finish, st.start ≤ f
  /-- The last transition so far and the next one stand side by side. -/
  neighbours : ∃ past future, history = past ++ future ∧
    (∀ u ∈ past, u.effective ≤ t) ∧ (∀ u ∈ future, t < u.effective) ∧
      st.previous = past.getLast? ∧ st.pending = future.head?
  /-- A subscription that is cancelled ended with the last transition so far. -/
  ended : st.isCancelled = true → ∃ u, st.previous = some u ∧ u.type = .cancel ∧
    st.finish = some u.effective ∧ st.lastActiveTarget?.isSome = true

end Standing

section States

variable {es : List Event} {category : Category} {t : Instant} {st : Standing}

theorem standingAt_previous (h : standingAt es category t = some st) :
    st.previous = (transitionsUpTo es t).getLast? := by
  obtain ⟨era, -, rfl⟩ := Option.map_eq_some_iff.1 h
  exact findRev?_transitions es t

theorem standingAt_active (h : standingAt es category t = some st) :
    st.plan.isSome = true ↔ st.start ≤ t ∧ st.isCancelled = false := by
  rw [standingAt_plan_isSome h]
  constructor
  · intro hplan
    rw [standingAt_target? h] at hplan
    by_cases hcancelled : (reached es t).cancelled = true
    · simp [hcancelled] at hplan
    · rw [if_neg hcancelled] at hplan
      obtain ⟨_, hst, hstart, -⟩ := standingAt_of_started category hplan
      cases h.symm.trans hst
      exact ⟨hstart, (standingAt_isCancelled h).trans (Bool.eq_false_iff.2 hcancelled)⟩
  · rintro ⟨hstart, hlive⟩
    obtain ⟨hstarted, hcancelled, htarget⟩ := standingAt_spec h hstart
    rw [htarget (hcancelled.symm.trans hlive)]
    exact hstarted

theorem standingAt_apart (h : standingAt es category t = some st)
    (hending : st.isFutureCancelled = true) : st.isCancelled = false := by
  obtain ⟨era, -, rfl⟩ := Option.map_eq_some_iff.1 h
  obtain ⟨f, hf, hlt⟩ := (Option.any_eq_true ..).1 hending
  show era.endDate?.any (· ≤ t) = false
  rw [hf]
  exact decide_eq_false (Int.not_le.2 (of_decide_eq_true hlt))

theorem standingAt_neighbours (h : standingAt es category t = some st) :
    ∃ past future, transitions es = past ++ future ∧
      (∀ u ∈ past, u.effective ≤ t) ∧ (∀ u ∈ future, t < u.effective) ∧
        st.previous = past.getLast? ∧ st.pending = future.head? := by
  obtain ⟨future, hsplit, hfuture⟩ := transitions_split es t
  refine ⟨_, future, hsplit, fun _ => le_of_mem_transitionsUpTo, hfuture,
    standingAt_previous h, ?_⟩
  obtain ⟨era, -, rfl⟩ := Option.map_eq_some_iff.1 h
  have hpast : (transitionsUpTo es t).find? (t < ·.effective) = none :=
    List.find?_eq_none.2 fun u hu hlt =>
      Int.not_lt.2 (le_of_mem_transitionsUpTo hu) (of_decide_eq_true hlt)
  show (transitions es).find? (t < ·.effective) = _
  rw [hsplit, List.find?_append, hpast, Option.none_or, ← List.head?_filter,
    List.filter_eq_self.2 fun u hu => decide_eq_true (hfuture u hu)]

/-- **The state is coherent**, whatever the events are. Plan, phase and price list are there
together, from the start on until the subscription is cancelled. The end does not lie before the
start and has either come or not. Of two transitions that follow one another, one is the last so far
and the other the next. A subscription that is cancelled was cancelled by the last transition so
far, as of its end, and it is known from what. -/
theorem standing_coheres (h : standingAt es category t = some st) :
    st.Coheres (transitions es) t where
  together := by
    obtain ⟨era, -, rfl⟩ := Option.map_eq_some_iff.1 h
    simp only [Option.isSome_map, and_self]
  active := standingAt_active h
  apart := fun ⟨hended, hending⟩ => by
    rw [standingAt_apart h hending] at hended
    cases hended
  ordered := by
    obtain ⟨era, hera, rfl⟩ := Option.map_eq_some_iff.1 h
    exact fun f =>
      Era.opening_le_of_mem_endDate? (pairwise_date_transitions es) (mem_of_eraAt? hera)
  neighbours := standingAt_neighbours h
  ended := by
    intro hcancelled
    have hfinish := standingAt_finish_of_cancelled h hcancelled
    rw [standingAt_isCancelled h] at hcancelled
    obtain ⟨u, hlast, htype, hprevious⟩ := exists_cancel_of_reached hcancelled
    rw [hlast, Option.map_some] at hfinish
    have hu : st.previous = some u := (standingAt_previous h).trans hlast
    refine ⟨u, hu, htype, hfinish, ?_⟩
    rw [Standing.lastActiveTarget?, hu, Option.bind_some, Option.isSome_or, hprevious, Bool.or_true]

end States

namespace Sample

/-- A change of nothing, three lives of a subscription, of which the second begins on the day that
the first one ends, and a phase of the second that comes after its end. -/
def lives : List Event :=
  [event 1 0 (.change ⟨"shotgun-monthly", "evergreen", "DEFAULT"⟩),
    event 2 5 (.create ⟨"pistol-monthly", "trial", "DEFAULT"⟩), event 3 20 .cancel,
    event 4 20 (.reCreate ⟨"shotgun-monthly", "trial", "DEFAULT"⟩), event 5 40 .cancel,
    event 6 45 (.phase "evergreen"),
    event 7 60 (.reCreate ⟨"pistol-monthly", "evergreen", "DEFAULT"⟩)]

end Sample

/-- Between the second life and the third. -/
theorem standing_coheres_sample :
    ∃ st, standingAt Sample.lives .base (Sample.day 50) = some st ∧
      st.Coheres (transitions Sample.lives) (Sample.day 50) ∧
      st.start = Sample.day 20 ∧ st.finish = some (Sample.day 40) ∧ st.isCancelled = true ∧
      st.lastActiveTarget? = some ⟨"shotgun-monthly", "trial", "DEFAULT"⟩ ∧
      st.pending.map (·.effective) = some (Sample.day 60) := by
  have hread : (standingAt Sample.lives .base (Sample.day 50)).map
      (fun st => (st.start, st.finish, st.isCancelled, st.lastActiveTarget?,
        st.pending.map (·.effective))) =
      some (Sample.day 20, some (Sample.day 40), true,
        some ⟨"shotgun-monthly", "trial", "DEFAULT"⟩, some (Sample.day 60)) := by
    decide
  obtain ⟨st, hst, hparts⟩ := Option.map_eq_some_iff.1 hread
  simp only [Prod.mk.injEq] at hparts
  exact ⟨st, hst, standing_coheres hst, hparts⟩

end Tenure
