import Tenure.Proofs.Coherence

/-!
# The past does not depend on the future

The state at a date is read off the whole history, and an event can lose its effect to one that is
recorded much later. Still all that the state says of the time up to the date (`Retrospect`) follows
from the events up to then, and events that lie behind the date change nothing of it, whatever they
are and whenever they were recorded.

An event loses its effect only to one that does not lie behind it (`effectiveEvents_upTo`). So the
transitions up to a date are those of the events up to that date (`transitionsUpTo_eq`), and it is
the last of them that the state tells of (`standingAt_retrospect`).
-/

namespace Tenure

/-! ## Transitions up to a date -/

section Histories

variable {es fs : List Event} {t : Instant}

theorem transitionsUpTo_eq (hids : (es.map (·.id)).Nodup) (t : Instant) :
    transitionsUpTo es t = transitions (es.filter (·.effective ≤ t)) := by
  rw [transitionsUpTo, transitions, effectiveEvents_upTo hids]

theorem transitionsUpTo_congr (hids : (es.map (·.id)).Nodup) (hids' : (fs.map (·.id)).Nodup)
    (h : ∀ e, e.effective ≤ t → (e ∈ es ↔ e ∈ fs)) :
    transitionsUpTo es t = transitionsUpTo fs t := by
  have hsub {gs : List Event} (hgs : (gs.map (·.id)).Nodup) :
      ((gs.filter (·.effective ≤ t)).map (·.id)).Nodup :=
    hgs.sublist (List.filter_sublist.map _)
  have hsame : effectiveEvents (es.filter (·.effective ≤ t)) =
      effectiveEvents (fs.filter (·.effective ≤ t)) :=
    effectiveEvents_congr (hsub hids) (hsub hids') fun e => by
      simp only [List.mem_filter, decide_eq_true_eq]
      exact and_congr_left (h e)
  rw [transitionsUpTo_eq hids, transitionsUpTo_eq hids', transitions, transitions, hsame]

end Histories

/-! ## What the state says of them -/

/-- The part of a state that is about the time up to its date. -/
structure Retrospect where
  plan : Option String
  phase : Option String
  priceList : Option String
  previous : Option Transition
  isCancelled : Bool
  deriving DecidableEq

def Standing.retrospect (st : Standing) : Retrospect :=
  ⟨st.plan, st.phase, st.priceList, st.previous, st.isCancelled⟩

/-- What is reported of the time up to `t`: nothing in particular if there is no state. -/
def retrospectAt (es : List Event) (category : Category) (t : Instant) : Retrospect :=
  ((standingAt es category t).map (·.retrospect)).getD ⟨none, none, none, none, false⟩

/-- What there is to tell of a history is where its last transition leads. -/
def Retrospect.of (history : List Transition) : Retrospect where
  plan := (lastTarget history).map (·.plan)
  phase := (lastTarget history).map (·.phase)
  priceList := (lastTarget history).map (·.priceList)
  previous := history.getLast?
  isCancelled := history.getLast?.any (·.activity == .cancelled)

section States

variable {es fs : List Event} {category : Category} {t : Instant}

theorem standingAt_retrospect {st : Standing} (h : standingAt es category t = some st) :
    st.retrospect = .of (transitionsUpTo es t) := by
  have hcancelled := (standingAt_isCancelled h).trans (cancelled_reached_eq es t)
  obtain ⟨era, -, rfl⟩ := Option.map_eq_some_iff.1 h
  simp only [Standing.retrospect, Retrospect.of, lastTarget, ← findRev?_transitions] at hcancelled ⊢
  rw [hcancelled]

theorem retrospectAt_eq (hids : (es.map (·.id)).Nodup) :
    retrospectAt es category t = .of (transitionsUpTo es t) := by
  rw [retrospectAt]
  cases hst : standingAt es category t with
  | some st => exact standingAt_retrospect hst
  | none =>
    have hnone : starts ((effectiveEvents es).filter (·.effective ≤ t)) = [] := by
      have hstarts := starts_eq_nil.1 ((standingAt_eq_none hids).1 hst)
      exact starts_eq_nil.2 fun e he =>
        hstarts e (mem_effectiveEvents.1 (List.mem_filter.1 he).1).1
    rw [transitionsUpTo, transitionsFrom_start_of_not_starts hnone]
    rfl

/-- **The past does not depend on the future.** The transitions up to a date are those of the events
up to it. Events that agree up to a date tell the same of the time up to it, be there a state or
not. If the one are among the others, a state that the one have the others have too. -/
theorem past_settled (hids : (es.map (·.id)).Nodup) (t : Instant) :
    transitions (es.filter (·.effective ≤ t)) = (transitions es).filter (·.effective ≤ t) ∧
      ∀ fs : List Event, (fs.map (·.id)).Nodup → (∀ e, e.effective ≤ t → (e ∈ es ↔ e ∈ fs)) →
        ∀ category, retrospectAt fs category t = retrospectAt es category t ∧
          (es ⊆ fs → ∀ st, standingAt es category t = some st →
            ∃ st', standingAt fs category t = some st' ∧ st'.retrospect = st.retrospect) := by
  refine ⟨by rw [filter_transitions, transitionsUpTo_eq hids], fun fs hids' hsame category => ?_⟩
  have hpast := transitionsUpTo_congr hids hids' hsame
  refine ⟨by rw [retrospectAt_eq hids, retrospectAt_eq hids', hpast], fun hsub st hst => ?_⟩
  cases hst' : standingAt fs category t with
  | some st' =>
    exact ⟨st', rfl, by rw [standingAt_retrospect hst, standingAt_retrospect hst', hpast]⟩
  | none =>
    have hstarts := starts_eq_nil.1 ((standingAt_eq_none hids').1 hst')
    have hnone : standingAt es category t = none :=
      (standingAt_eq_none hids).2 (starts_eq_nil.2 fun e he => hstarts e (hsub he))
    cases hst.symm.trans hnone

end States

namespace Sample

/-- Events behind day 50, with orderings in front of all others or at those of others: a change, the
end of the second life taken back too late, and a start. -/
def afterthoughts : List Event :=
  [{ event 8 51 (.change ⟨"shotgun-monthly", "evergreen", "DEFAULT"⟩) with ordering := 0 },
    { event 9 52 .uncancel with ordering := 5 },
    { event 10 55 (.reCreate ⟨"shotgun-monthly", "trial", "DEFAULT"⟩) with ordering := 3 }]

end Sample

/-- The subscription stays cancelled as of day 50. What is changed is the future. -/
theorem past_settled_sample :
    ∃ st st', standingAt Sample.lives .base (Sample.day 50) = some st ∧
      standingAt (Sample.afterthoughts ++ Sample.lives) .base (Sample.day 50) = some st' ∧
      st'.retrospect = st.retrospect ∧ st'.isCancelled = true ∧
      st.pending.map (·.effective) = some (Sample.day 60) ∧
      st'.pending.map (·.effective) = some (Sample.day 55) := by
  have hread : (standingAt Sample.lives .base (Sample.day 50)).map
      (fun st => (st.isCancelled, st.pending.map (·.effective))) =
      some (true, some (Sample.day 60)) := by
    decide
  have hread' : (standingAt (Sample.afterthoughts ++ Sample.lives) .base (Sample.day 50)).map
      (fun st => st.pending.map (·.effective)) = some (some (Sample.day 55)) := by
    decide
  obtain ⟨st, hst, hparts⟩ := Option.map_eq_some_iff.1 hread
  obtain ⟨hcancelled, hpending⟩ := Prod.mk.inj hparts
  obtain ⟨st', hst', hpending'⟩ := Option.map_eq_some_iff.1 hread'
  have hlater : ∀ e ∈ Sample.afterthoughts, Sample.day 50 < e.effective := by decide
  have hids : (Sample.lives.map (·.id)).Nodup := by decide
  obtain ⟨-, hstays⟩ := (past_settled hids (Sample.day 50)).2
    (Sample.afterthoughts ++ Sample.lives) (by decide)
    (fun e hdate => ⟨List.mem_append_right _, fun he => (List.mem_append.1 he).resolve_left
      fun hnew => Int.not_lt.2 hdate (hlater e hnew)⟩) .base
  obtain ⟨_, hfound, hsame⟩ := hstays (List.subset_append_right _ _) st hst
  cases hst'.symm.trans hfound
  exact ⟨st, st', hst, hst', hsame, (congrArg Retrospect.isCancelled hsame).trans hcancelled,
    hpending, hpending'⟩

end Tenure
