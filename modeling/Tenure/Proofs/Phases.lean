import Tenure.Proofs.Calendar
import Tenure.Proofs.Filing

/-!
# Schedules run to the end of the plan

Laying out the phases of a plan stops after the first one without end or at the last one of the
plan, and so does every schedule that is seen off such a chain, whatever the date (`Follows`). If
limited durations are positive, the phases of a schedule begin one after the other.

`Catalog.IsSteady` says of a catalog what this is worth something for: a plan that it gives once is
found under its name for ever, with phases of distinct names and positive durations.
-/

namespace Tenure

/-! ## Steady catalogs -/

/-- The plan is found under its name at every date. -/
def Catalog.Has (catalog : Catalog) (plan : Plan) : Prop :=
  ∀ date, catalog.findPlanByName plan.name date = .ok plan

/-- A catalog whose answers do not depend on the date, which tells plans apart by their names and
the phases of a plan by theirs, and all of whose limited durations are positive. -/
structure Catalog.IsSteady (catalog : Catalog) : Prop where
  found : ∀ spec date plan, catalog.findPlan spec date = .ok plan → catalog.Has plan
  named : ∀ name date plan, catalog.findPlanByName name date = .ok plan →
    plan.name = name ∧ catalog.Has plan
  phaseNames : ∀ plan, catalog.Has plan → (plan.phases.map (·.name)).Nodup
  durations : ∀ plan, catalog.Has plan → ∀ phase ∈ plan.phases, phase.duration.IsPositive

/-- A phase of that name has no successor: it has no end or is the last one. -/
def Plan.EndsOn (plan : Plan) (name : String) : Prop :=
  ∃ phase ∈ plan.phases, phase.name = name ∧
    (phase.duration.isUnlimited = true ∨ plan.phases.getLast? = some phase)

instance (plan : Plan) (name : String) : Decidable (plan.EndsOn name) :=
  inferInstanceAs (Decidable (∃ phase ∈ plan.phases, phase.name = name ∧
    (phase.duration.isUnlimited = true ∨ plan.phases.getLast? = some phase)))

/-- The target is a phase of its plan that has no successor. -/
def Catalog.IsFinal (catalog : Catalog) (t : Target) : Prop :=
  ∃ plan, catalog.Has plan ∧ plan.name = t.plan ∧ plan.EndsOn t.phase

/-! ## Chains -/

theorem layOut_last {name : String} {anchor : Instant} {phases : List Phase} {first : TimedPhase}
    {rest : List TimedPhase} (h : layOut name anchor phases = .ok (first :: rest)) :
    (rest.getLastD first).phase ∈ phases ∧
      ((rest.getLastD first).phase.duration.isUnlimited = true ∨
        phases.getLast? = some (rest.getLastD first).phase) := by
  induction phases generalizing anchor first rest with
  | nil => cases h
  | cons phase phases ih =>
    unfold layOut at h
    by_cases hunlimited : phase.duration.isUnlimited = true
    · rw [if_pos hunlimited] at h
      cases h
      exact ⟨by simp, .inl hunlimited⟩
    · rw [if_neg hunlimited] at h
      cases hnext : phase.duration.addTo anchor with
      | none => simp [hnext] at h
      | some next =>
        simp only [hnext, map_eq_ok] at h
        obtain ⟨timed, htimed, hcons⟩ := h
        cases hcons
        cases rest with
        | nil =>
          cases phases with
          | nil => exact ⟨by simp, .inr rfl⟩
          | cons phase' phases =>
            unfold layOut at htimed
            split at htimed
            · cases htimed
            · split at htimed
              · cases htimed
              · obtain ⟨_, -, hcons⟩ := map_eq_ok.1 htimed
                cases hcons
        | cons second rest =>
          obtain ⟨hmem, hlast⟩ := ih htimed
          rw [List.getLastD_cons]
          refine ⟨List.mem_cons_of_mem _ hmem, hlast.imp_right fun hlast => ?_⟩
          cases phases with
          | nil => cases hmem
          | cons phase' phases => rw [List.getLast?_cons_cons, hlast]

theorem layOut_head {name : String} {anchor : Instant} {phases : List Phase} {first : TimedPhase}
    {rest : List TimedPhase} (h : layOut name anchor phases = .ok (first :: rest)) :
    phases.head? = some first.phase ∧ first.start = anchor := by
  cases phases with
  | nil => cases h
  | cons phase phases =>
    unfold layOut at h
    split at h
    · cases h
      exact ⟨rfl, rfl⟩
    · split at h
      · cases h
      · obtain ⟨_, -, hcons⟩ := map_eq_ok.1 h
        cases hcons
        exact ⟨rfl, rfl⟩

/-- Phases of positive length begin one after the other. -/
theorem layOut_ascending {name : String} {anchor : Instant} {phases : List Phase}
    {timed : List TimedPhase} (h : layOut name anchor phases = .ok timed)
    (hpos : ∀ phase ∈ phases, phase.duration.IsPositive) :
    timed.Pairwise (fun a b => a.start < b.start) ∧ ∀ p ∈ timed, anchor ≤ p.start := by
  induction phases generalizing anchor timed with
  | nil =>
    cases h
    simp
  | cons phase phases ih =>
    unfold layOut at h
    split at h
    · cases h
      simp [Instant.le_def]
    · split at h
      · cases h
      next next hnext =>
        obtain ⟨rest, hrest, rfl⟩ := map_eq_ok.1 h
        obtain ⟨hpair, hle⟩ := ih hrest fun p hp => hpos p (by simp [hp])
        have hlt := Duration.lt_of_addTo (hpos phase (by simp)) hnext
        refine ⟨List.pairwise_cons.2 ⟨fun p hp => Int.lt_of_lt_of_le hlt (hle p hp), hpair⟩, ?_⟩
        intro p hp
        rcases List.mem_cons.1 hp with rfl | hp
        · exact Int.le_refl _
        · exact Int.le_of_lt (Int.lt_of_lt_of_le hlt (hle p hp))

theorem layOut_sorted {name : String} {anchor : Instant} {phases : List Phase}
    {timed : List TimedPhase} (h : layOut name anchor phases = .ok timed) :
    timed.Pairwise (fun a b => a.start ≤ b.start) ∧ ∀ p ∈ timed, anchor ≤ p.start := by
  induction phases generalizing anchor timed with
  | nil =>
    cases h
    simp
  | cons phase phases ih =>
    unfold layOut at h
    split at h
    · cases h
      simp [Instant.le_def]
    · split at h
      · cases h
      next next hnext =>
        obtain ⟨rest, hrest, rfl⟩ := map_eq_ok.1 h
        obtain ⟨hpair, hle⟩ := ih hrest
        have hbehind : ∀ p ∈ rest, anchor ≤ p.start := fun p hp =>
          Int.le_trans (Duration.le_of_addTo hnext) (hle p hp)
        exact ⟨List.pairwise_cons.2 ⟨hbehind, hpair⟩,
          List.forall_mem_cons.2 ⟨Int.le_refl _, hbehind⟩⟩

/-- What periods keep holds of all phases if it holds of the anchor. -/
theorem layOut_keeps {P : Instant → Prop} (hP : Duration.Keeps P) {name : String}
    {anchor : Instant} {phases : List Phase} {timed : List TimedPhase}
    (h : layOut name anchor phases = .ok timed) (hanchor : P anchor) :
    ∀ p ∈ timed, P p.start := by
  induction phases generalizing anchor timed with
  | nil =>
    cases h
    simp
  | cons phase phases ih =>
    unfold layOut at h
    split at h
    · cases h
      simpa using hanchor
    · split at h
      · cases h
      next next hnext =>
        obtain ⟨rest, hrest, rfl⟩ := map_eq_ok.1 h
        exact List.forall_mem_cons.2
          ⟨hanchor, ih hrest (hP hanchor hnext)⟩

/-! ## Schedules -/

namespace Schedule

/-- The phase that a schedule ends on. -/
def last (s : Schedule) : TimedPhase := s.upcoming.getLastD s.current

/-- The schedule runs through phases of the plan, one after the other, to one without
successor. -/
structure Follows (plan : Plan) (s : Schedule) : Prop where
  ends : plan.EndsOn s.last.phase.name
  ascending : s.phases.Pairwise (fun a b => a.start < b.start)

theorem seenFrom_last (date : Instant) (current : TimedPhase) (ps : List TimedPhase) :
    (seenFrom date current ps).last = ps.getLastD current := by
  induction ps generalizing current with
  | nil => rfl
  | cons p ps ih =>
    unfold seenFrom
    split
    · rw [ih, List.getLastD_cons]
    · rfl

theorem seenFrom_suffix (date : Instant) (current : TimedPhase) (ps : List TimedPhase) :
    (seenFrom date current ps).phases <:+ current :: ps := by
  induction ps generalizing current with
  | nil => exact List.suffix_rfl
  | cons p ps ih =>
    unfold seenFrom
    split
    · exact (ih p).trans (List.suffix_cons current (p :: ps))
    · exact List.suffix_rfl

theorem seenFrom_current (date : Instant) (current : TimedPhase) (ps : List TimedPhase) :
    (seenFrom date current ps).current = (ps.filter (·.start ≤ date)).getLastD current := by
  induction ps generalizing current with
  | nil => rfl
  | cons p ps ih =>
    unfold seenFrom
    by_cases hbegun : p.start ≤ date
    · rw [if_pos (by simp [hbegun]), ih, List.filter_cons_of_pos (by simpa using hbegun),
        List.getLastD_cons]
    · rw [List.filter_cons_of_neg (by simpa using hbegun)]
      by_cases hlater : ps.any (·.start ≤ date) = true
      · obtain ⟨q, hq, hle⟩ := List.any_eq_true.1 hlater
        have hne : ps.filter (·.start ≤ date) ≠ [] :=
          List.ne_nil_of_mem (List.mem_filter.2 ⟨hq, hle⟩)
        rw [if_pos (by simpa [hbegun] using hlater), ih, List.getLastD_eq_getLast?,
          List.getLastD_eq_getLast?, List.getLast?_eq_some_getLast hne]
        rfl
      · have hnone : ps.filter (·.start ≤ date) = [] :=
          List.filter_eq_nil_iff.2 fun q hq hle => hlater (List.any_eq_true.2 ⟨q, hq, hle⟩)
        rw [if_neg (by simpa [hbegun] using hlater), hnone]
        rfl

theorem lt_of_mem_seenFrom {date : Instant} {current : TimedPhase} {ps : List TimedPhase} :
    ∀ p ∈ (seenFrom date current ps).upcoming, date < p.start := by
  induction ps generalizing current with
  | nil => simp [seenFrom]
  | cons p ps ih =>
    unfold seenFrom
    split
    · exact ih
    next hnone =>
      intro q hq
      have hlater : ¬ q.start ≤ date := fun hle =>
        hnone (List.any_eq_true.2 ⟨q, hq, by simpa using hle⟩)
      exact Int.not_le.1 hlater

/-- A chain in which all but the first phase lie ahead is seen as it is. -/
theorem seenFrom_of_lt {date : Instant} {current : TimedPhase} {ps : List TimedPhase}
    (h : ∀ p ∈ ps, date < p.start) : seenFrom date current ps = ⟨current, ps⟩ := by
  cases ps with
  | nil => rfl
  | cons p ps =>
    have hnone : ¬ (p :: ps).any (·.start ≤ date) = true := by
      rw [List.any_eq_true]
      rintro ⟨q, hq, hle⟩
      have := h q hq
      simp only [decide_eq_true_eq, Instant.le_def, Instant.lt_def] at *
      omega
    rw [seenFrom, if_neg hnone]

theorem Follows.moveTo {plan : Plan} {s : Schedule} (h : s.Follows plan) (date : Instant) :
    (s.moveTo date).Follows plan where
  ends := by
    have hlast : (s.moveTo date).last = s.last := seenFrom_last _ _ _
    rw [hlast]
    exact h.ends
  ascending := h.ascending.sublist (seenFrom_suffix date s.current s.upcoming).sublist

end Schedule

/-- A chain is the phases of the plan from some place on, laid out from the anchor. -/
theorem phaseChain_eq_ok {plan : Plan} {index : Nat} {anchor : Instant} {s : Schedule}
    (h : phaseChain plan index anchor = .ok s) :
    layOut plan.name anchor (plan.phases.drop index) = .ok s.phases := by
  unfold phaseChain at h
  split at h
  · cases h
  · cases h
  next first rest hchain =>
    cases h
    exact hchain

theorem phaseChain_current {plan : Plan} {index : Nat} {anchor : Instant} {s : Schedule}
    (h : phaseChain plan index anchor = .ok s) :
    plan.phases[index]? = some s.current.phase ∧ s.current.start = anchor := by
  obtain ⟨hhead, hstart⟩ := layOut_head (phaseChain_eq_ok h)
  rw [List.head?_drop] at hhead
  exact ⟨hhead, hstart⟩

theorem phaseChain_follows {plan : Plan} {index : Nat} {anchor : Instant} {s : Schedule}
    (h : phaseChain plan index anchor = .ok s)
    (hpos : ∀ phase ∈ plan.phases, phase.duration.IsPositive) :
    s.Follows plan ∧ plan.phases[index]? = some s.current.phase ∧ s.current.start = anchor := by
  have hchain := phaseChain_eq_ok h
  obtain ⟨hmem, hlast⟩ := layOut_last hchain
  have hdrop : plan.phases.drop index ≠ [] := fun hnil => by simp [hnil] at hmem
  refine ⟨⟨⟨_, List.mem_of_mem_drop hmem, rfl, hlast.imp_right fun hlast => ?_⟩, ?_⟩,
    phaseChain_current h⟩
  · rwa [List.getLast?_drop, if_neg (by simpa using hdrop)] at hlast
  · exact (layOut_ascending hchain fun p hp => hpos p (List.mem_of_mem_drop hp)).1

/-! ## Alignment -/

/-- The schedule is a chain of phases of the plan, seen from the date. -/
def Schedule.SeenAt (plan : Plan) (date : Instant) (s : Schedule) : Prop :=
  ∃ index anchor chain, phaseChain plan index anchor = .ok chain ∧ s = chain.moveTo date

namespace Schedule.SeenAt

variable {plan : Plan} {date : Instant} {s : Schedule}

theorem sorted (h : s.SeenAt plan date) : s.phases.Pairwise (fun a b => a.start ≤ b.start) := by
  obtain ⟨index, anchor, chain, hchain, rfl⟩ := h
  exact (layOut_sorted (phaseChain_eq_ok hchain)).1.sublist
    (seenFrom_suffix date chain.current chain.upcoming).sublist

theorem ahead (h : s.SeenAt plan date) : ∀ p ∈ s.upcoming, date < p.start := by
  obtain ⟨_, _, _, -, rfl⟩ := h
  exact lt_of_mem_seenFrom

theorem follows (h : s.SeenAt plan date)
    (hpos : ∀ phase ∈ plan.phases, phase.duration.IsPositive) : s.Follows plan := by
  obtain ⟨_, _, _, hchain, rfl⟩ := h
  exact (phaseChain_follows hchain hpos).1.moveTo date

end Schedule.SeenAt

namespace Catalog

variable {catalog : Catalog} {anchors : Anchors} {plan : Plan} {priceList : String}
  {requested effective : Instant} {s : Schedule}

theorem alignOnCreate_seenAt {initial : Option PhaseType}
    (h : catalog.alignOnCreate anchors plan initial priceList requested effective = .ok s) :
    s.SeenAt plan effective := by
  simp only [alignOnCreate, bind_eq_ok, liftCatalog_eq_ok, pure_eq_ok] at h
  obtain ⟨⟨index, anchor⟩, -, chain, hchain, rfl⟩ := h
  exact ⟨index, anchor, chain, hchain, rfl⟩

theorem alignOnChange_seenAt {current : Target}
    (h : catalog.alignOnChange anchors current plan priceList requested effective = .ok s) :
    s.SeenAt plan effective := by
  simp only [alignOnChange, bind_eq_ok, liftCatalog_eq_ok, pure_eq_ok] at h
  obtain ⟨source, -, terms, -, chain, hchain, rfl⟩ := h
  exact ⟨_, _, chain, hchain, rfl⟩

theorem alignRecorded_seenAt {t : Transition} {target : Target}
    (h : catalog.alignRecorded anchors t plan target = .ok (some s)) :
    s.SeenAt plan t.effective := by
  unfold alignRecorded at h
  split at h
  · cases h
  · obtain ⟨s', hs', hsome⟩ := map_eq_ok.1 h
    cases hsome
    exact alignOnChange_seenAt hs'
  · cases h
  · obtain ⟨s', hs', hsome⟩ := map_eq_ok.1 h
    cases hsome
    exact alignOnCreate_seenAt hs'

/-- The schedule of a transition is what the alignment gives, if it starts on the phase that the
transition led to, and the phases from that one on otherwise. -/
theorem alignTransition_eq_ok {t : Transition}
    (h : catalog.alignTransition anchors t = .ok (some s)) :
    ∃ target plan, t.next = some target ∧
      catalog.findPlanByName target.plan t.effective = .ok plan ∧
      (catalog.alignRecorded anchors t plan target = .ok (some s) ∧
          s.current.phase.name = target.phase ∨
        ∃ index chain, plan.phaseIndex? target.phase = some index ∧
          phaseChain plan index t.effective = .ok chain ∧ s = chain.moveTo t.effective) := by
  unfold alignTransition at h
  split at h
  · rw [pure_eq_ok] at h
    cases h
  next target hnext =>
    simp only [bind_eq_ok, liftCatalog_eq_ok] at h
    obtain ⟨plan, hplan, aligned, haligned, h⟩ := h
    refine ⟨target, plan, hnext, hplan, ?_⟩
    split at h
    next schedule hfound =>
      rw [pure_eq_ok] at h
      cases h
      obtain ⟨rfl, hphase⟩ := Option.filter_eq_some_iff.1 hfound
      exact .inl ⟨haligned, by simpa using hphase⟩
    · split at h
      · simp [throw_ne_ok] at h
      next index hindex =>
        simp only [bind_eq_ok, pure_eq_ok] at h
        obtain ⟨chain, hchain, hmoved⟩ := h
        cases hmoved
        exact .inr ⟨index, chain, hindex, hchain, rfl⟩

theorem alignTransition_seenAt {t : Transition}
    (h : catalog.alignTransition anchors t = .ok (some s)) :
    ∃ target plan, t.next = some target ∧
      catalog.findPlanByName target.plan t.effective = .ok plan ∧ s.SeenAt plan t.effective := by
  obtain ⟨target, plan, hnext, hplan, ⟨haligned, -⟩ | ⟨index, chain, -, hchain, rfl⟩⟩ :=
    alignTransition_eq_ok h
  · exact ⟨target, plan, hnext, hplan, alignRecorded_seenAt haligned⟩
  · exact ⟨target, plan, hnext, hplan, index, _, chain, hchain, rfl⟩

/-! What periods keep holds of all phases of a schedule if it holds of the dates that they may be
laid out from. -/

section Keeps

variable {P : Instant → Prop} (hP : Duration.Keeps P)

include hP

theorem phaseChain_keeps {index : Nat} {anchor : Instant} {chain : Schedule}
    (h : phaseChain plan index anchor = .ok chain) (hanchor : P anchor) (date : Instant) :
    ∀ p ∈ (chain.moveTo date).phases, P p.start := fun p hp =>
  layOut_keeps hP (phaseChain_eq_ok h) hanchor p
    ((Schedule.seenFrom_suffix date chain.current chain.upcoming).subset hp)

theorem alignOnCreate_keeps {initial : Option PhaseType}
    (h : catalog.alignOnCreate anchors plan initial priceList requested effective = .ok s)
    (hbundle : P anchors.bundleStart) (halign : P anchors.alignStart) (heffective : P effective) :
    ∀ p ∈ s.phases, P p.start := by
  simp only [alignOnCreate, bind_eq_ok, liftCatalog_eq_ok, pure_eq_ok] at h
  obtain ⟨⟨index, anchor⟩, hstart, chain, hchain, rfl⟩ := h
  refine phaseChain_keeps hP hchain ?_ effective
  unfold chainStart at hstart
  split at hstart
  · obtain ⟨_, -, hsame⟩ := map_eq_ok.1 hstart
    cases hsame
    exact heffective
  · obtain ⟨alignment, -, hsame⟩ := map_eq_ok.1 hstart
    cases hsame
    cases alignment <;> assumption

theorem alignOnChange_keeps {current : Target}
    (h : catalog.alignOnChange anchors current plan priceList requested effective = .ok s)
    (hbundle : P anchors.bundleStart) (halign : P anchors.alignStart) (heffective : P effective) :
    ∀ p ∈ s.phases, P p.start := by
  simp only [alignOnChange, bind_eq_ok, liftCatalog_eq_ok, pure_eq_ok] at h
  obtain ⟨source, -, terms, -, chain, hchain, rfl⟩ := h
  refine phaseChain_keeps hP hchain ?_ effective
  cases terms.alignment <;> cases current.priceList == priceList <;> assumption

theorem alignTransition_keeps {t : Transition}
    (h : catalog.alignTransition anchors t = .ok (some s)) (hbundle : P anchors.bundleStart)
    (halign : P anchors.alignStart) (heffective : P t.effective) :
    ∀ p ∈ s.phases, P p.start := by
  obtain ⟨target, plan, -, -, ⟨haligned, -⟩ | ⟨index, chain, -, hchain, rfl⟩⟩ :=
    alignTransition_eq_ok h
  · unfold alignRecorded at haligned
    split at haligned
    · cases haligned
    · obtain ⟨s', hs', hsome⟩ := map_eq_ok.1 haligned
      cases hsome
      exact alignOnChange_keeps hP hs' hbundle halign heffective
    · cases haligned
    · obtain ⟨s', hs', hsome⟩ := map_eq_ok.1 haligned
      cases hsome
      exact alignOnCreate_keeps hP hs' hbundle halign heffective
  · exact phaseChain_keeps hP hchain heffective t.effective

end Keeps

theorem alignTransition_follows (hcat : catalog.IsSteady) {t : Transition}
    (h : catalog.alignTransition anchors t = .ok (some s)) :
    ∃ target plan, t.next = some target ∧ catalog.Has plan ∧ plan.name = target.plan ∧
      s.Follows plan ∧ s.current.phase.name = target.phase := by
  obtain ⟨target, plan, hnext, hplan, hcases⟩ := alignTransition_eq_ok h
  obtain ⟨hname, hhas⟩ := hcat.named _ _ _ hplan
  have hpos := hcat.durations plan hhas
  refine ⟨target, plan, hnext, hhas, hname, ?_⟩
  rcases hcases with ⟨haligned, hphase⟩ | ⟨index, chain, hindex, hchain, rfl⟩
  · exact ⟨(alignRecorded_seenAt haligned).follows hpos, hphase⟩
  · obtain ⟨hfollows, hcurrent, hstart⟩ := phaseChain_follows hchain hpos
    refine ⟨hfollows.moveTo _, ?_⟩
    -- All but the first phase of the chain lie ahead of the transition.
    have hahead : ∀ p ∈ chain.upcoming, t.effective < p.start := by
      intro p hp
      have := (List.pairwise_cons.1 hfollows.ascending).1 p hp
      rwa [hstart] at this
    rw [Schedule.moveTo, Schedule.seenFrom_of_lt hahead]
    obtain ⟨hlt, hget, -⟩ := List.findIdx?_eq_some_iff_getElem.1 hindex
    rw [List.getElem?_eq_getElem hlt] at hcurrent
    rw [← Option.some.inj hcurrent]
    simpa using hget

end Catalog

end Tenure
