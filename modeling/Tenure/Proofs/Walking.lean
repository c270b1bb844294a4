import Tenure.Proofs.Realising
import Tenure.Proofs.Replanning

/-!
# Walking a chain phase by phase

The phases of a subscription are laid out as one chain from one anchor. Whoever follows a plan phase
by phase knows no anchor. All it has is the phase that it is on and the date on which that one
began, and from there it asks for the next phase (`Catalog.nextPhase`).

**Theorem (`chain_walked`).** Both see the same phases. A chain holds the phases of the plan from
some place on, up to the first without end, one beginning where the one before it is over. Seen from
any date, it loses nothing. And asked from any of its phases, at any instant, the next phase is the
first one behind it in the chain that begins after the instant.

What carries this is that the part of a chain from one of its phases on is the chain laid out from
the start of that phase (`phaseChain_of_append`). That phase is found under its name, since no other
phase of the plan has the name (`Plan.phaseIndex?_of_getElem?`).
-/

namespace Tenure

/-! ## The phases of a chain -/

/-- The phases up to the first without end, or all of them. -/
def upToEndless (phases : List Phase) : List Phase :=
  phases.takeWhile (!·.duration.isUnlimited) ++ (phases.find? (·.duration.isUnlimited)).toList

section Chains

variable {name : String} {anchor : Instant} {phases : List Phase} {timed : List TimedPhase}

theorem layOut_phases (h : layOut name anchor phases = .ok timed) :
    timed.map (·.phase) = upToEndless phases := by
  induction phases generalizing anchor timed with
  | nil =>
    cases h
    rfl
  | cons phase phases ih =>
    unfold layOut at h
    by_cases hendless : phase.duration.isUnlimited = true
    · rw [if_pos hendless] at h
      cases h
      simp [upToEndless, hendless]
    · rw [if_neg hendless] at h
      cases hnext : phase.duration.addTo anchor with
      | none => simp [hnext] at h
      | some next =>
        simp only [hnext, map_eq_ok] at h
        obtain ⟨rest, hrest, rfl⟩ := h
        rw [List.map_cons, ih hrest]
        simp [upToEndless, hendless]

theorem layOut_ofPlan (h : layOut name anchor phases = .ok timed) : ∀ p ∈ timed, p.plan = name := by
  induction phases generalizing anchor timed with
  | nil =>
    cases h
    simp
  | cons phase phases ih =>
    unfold layOut at h
    split at h
    · cases h
      simp
    · split at h
      · cases h
      · obtain ⟨rest, hrest, rfl⟩ := map_eq_ok.1 h
        exact List.forall_mem_cons.2 ⟨rfl, ih hrest⟩

theorem layOut_linked (h : layOut name anchor phases = .ok timed) :
    timed.IsChain fun a b => a.phase.duration.addTo a.start = some b.start := by
  induction phases generalizing anchor timed with
  | nil =>
    cases h
    exact .nil
  | cons phase phases ih =>
    unfold layOut at h
    split at h
    · cases h
      exact .singleton _
    · split at h
      · cases h
      next next hnext =>
        obtain ⟨rest, hrest, rfl⟩ := map_eq_ok.1 h
        cases rest with
        | nil => exact .singleton _
        | cons second rest =>
          refine .cons_cons ?_ (ih hrest)
          rw [(layOut_head hrest).2]
          exact hnext

/-- The part of a chain from one of its phases on is laid out from the start of that phase. -/
theorem layOut_of_append {front rest : List TimedPhase} {p : TimedPhase}
    (h : layOut name anchor phases = .ok (front ++ p :: rest)) :
    layOut name p.start (phases.drop front.length) = .ok (p :: rest) := by
  induction front generalizing anchor phases with
  | nil =>
    rw [(layOut_head h).2]
    exact h
  | cons first front ih =>
    cases phases with
    | nil => cases h
    | cons phase phases =>
      unfold layOut at h
      split at h
      · -- The only phase of the chain has no end, so there is none behind it.
        simp at h
      · split at h
        · cases h
        · obtain ⟨behind, hbehind, hcons⟩ := map_eq_ok.1 h
          obtain ⟨-, rfl⟩ := List.cons.inj hcons
          exact ih hbehind

end Chains

section PhaseChains

variable {plan : Plan} {index : Nat} {anchor : Instant} {chain : Schedule}
  {front rest : List TimedPhase} {p : TimedPhase}

theorem phaseChain_of_append (h : phaseChain plan index anchor = .ok chain)
    (hphases : chain.phases = front ++ p :: rest) :
    phaseChain plan (index + front.length) p.start = .ok ⟨p, rest⟩ := by
  have hlaid := layOut_of_append (hphases ▸ phaseChain_eq_ok h)
  rw [List.drop_drop] at hlaid
  rw [phaseChain, hlaid]

theorem Plan.phaseIndex?_of_getElem? (hnames : (plan.phases.map (·.name)).Nodup) {phase : Phase}
    (h : plan.phases[index]? = some phase) : plan.phaseIndex? phase.name = some index := by
  obtain ⟨hlt, rfl⟩ := List.getElem?_eq_some_iff.1 h
  refine List.findIdx?_eq_some_iff_getElem.2 ⟨hlt, beq_self_eq_true _, fun j hj => ?_⟩
  have hne := List.pairwise_iff_getElem.1 (List.pairwise_map.1 hnames) j index
    (Nat.lt_trans hj hlt) hlt hj
  simpa using hne

end PhaseChains

/-! ## Walking -/

namespace Schedule

/-- The chain holds the phases of the plan from a place on, laid end to end from the anchor. -/
structure EndToEnd (plan : Plan) (index : Nat) (anchor : Instant) (chain : Schedule) : Prop where
  covers : chain.phases.map (·.phase) = upToEndless (plan.phases.drop index)
  ofPlan : ∀ p ∈ chain.phases, p.plan = plan.name
  anchored : chain.current.start = anchor
  linked : chain.phases.IsChain fun a b => a.phase.duration.addTo a.start = some b.start
  rising : chain.phases.Pairwise fun a b => a.start ≤ b.start

/-- The schedule is the chain as seen from the date: the phase in force and all that begins after
the date. -/
structure Shows (s chain : Schedule) (date : Instant) : Prop where
  inForce : inForceAt chain.phases date = some s.current
  ahead : ∀ p ∈ s.upcoming, date < p.start
  /-- What is not shown has begun and is over. -/
  nothingLost : ∃ passed, chain.phases = passed ++ s.phases ∧ ∀ p ∈ passed, p.start ≤ date

variable {plan : Plan} {index : Nat} {anchor : Instant} {chain : Schedule}

theorem endToEnd (h : phaseChain plan index anchor = .ok chain) :
    chain.EndToEnd plan index anchor where
  covers := layOut_phases (phaseChain_eq_ok h)
  ofPlan := layOut_ofPlan (phaseChain_eq_ok h)
  anchored := (phaseChain_current h).2
  linked := layOut_linked (phaseChain_eq_ok h)
  rising := (layOut_sorted (phaseChain_eq_ok h)).1

theorem seenFrom_passed {date : Instant} {current : TimedPhase} {ps passed : List TimedPhase}
    (hrising : (current :: ps).Pairwise fun a b => a.start ≤ b.start)
    (h : current :: ps = passed ++ (seenFrom date current ps).phases) :
    ∀ p ∈ passed, p.start ≤ date := by
  intro p hp
  have hcurrent := seenFrom_current date current ps
  cases hbegun : ps.filter (·.start ≤ date) with
  | nil =>
    -- Nothing behind the first phase has begun, so the chain is seen as it is.
    have hall : seenFrom date current ps = ⟨current, ps⟩ := seenFrom_of_lt fun q hq =>
      Int.not_le.1 fun hle => List.filter_eq_nil_iff.1 hbegun q hq (decide_eq_true hle)
    have hlength := congrArg List.length h
    rw [hall, List.length_append] at hlength
    have hnil : passed = [] := List.length_eq_zero_iff.1 (by simpa [phases] using hlength)
    rw [hnil] at hp
    cases hp
  | cons q qs =>
    have hlast : (seenFrom date current ps).current ∈ ps.filter (·.start ≤ date) := by
      rw [hcurrent, hbegun, List.getLastD_cons]
      exact List.getLastD_mem_cons ..
    have hbefore := (List.pairwise_append.1 (h ▸ hrising)).2.2 p hp _ (List.mem_cons_self ..)
    exact Int.le_trans hbefore (of_decide_eq_true (List.mem_filter.1 hlast).2)

theorem shows_moveTo (hrising : chain.phases.Pairwise fun a b => a.start ≤ b.start)
    (date : Instant) : (chain.moveTo date).Shows chain date where
  inForce := by
    rw [phases, inForceAt_cons, moveTo, seenFrom_current]
  ahead := lt_of_mem_seenFrom
  nothingLost := by
    obtain ⟨passed, hpassed⟩ := seenFrom_suffix date chain.current chain.upcoming
    exact ⟨passed, hpassed.symm, seenFrom_passed hrising hpassed.symm⟩

end Schedule

theorem Catalog.nextPhase_of_append {plan : Plan} {index : Nat} {anchor : Instant}
    {chain : Schedule} (hnames : (plan.phases.map (·.name)).Nodup)
    (h : phaseChain plan index anchor = .ok chain) {front rest : List TimedPhase} {p : TimedPhase}
    (hphases : chain.phases = front ++ p :: rest) (after : Instant) :
    nextPhase plan p.phase.name p.start after = .ok (rest.find? (after < ·.start)) := by
  have hchain := phaseChain_of_append h hphases
  have hindex := Plan.phaseIndex?_of_getElem? hnames (phaseChain_current hchain).1
  rw [nextPhase, hindex]
  simp only [hchain]
  rfl

/-- **A chain can be walked phase by phase.** It holds the phases of the plan from its place on, up
to the first without end, each beginning where the one before it is over, and none before another
that stands in front of it. Seen from a date it shows the phase in force and all that lies ahead.
And from each of its phases, the next one after any instant is the first to begin after it among
those behind the phase, if there is one. -/
theorem chain_walked {plan : Plan} (hnames : (plan.phases.map (·.name)).Nodup) {index : Nat}
    {anchor : Instant} {chain : Schedule} (h : phaseChain plan index anchor = .ok chain) :
    chain.EndToEnd plan index anchor ∧ (∀ date, (chain.moveTo date).Shows chain date) ∧
      ∀ front p rest, chain.phases = front ++ p :: rest → ∀ after,
        Catalog.nextPhase plan p.phase.name p.start after = .ok (rest.find? (after < ·.start)) :=
  ⟨Schedule.endToEnd h, Schedule.shows_moveTo (Schedule.endToEnd h).rising,
    fun _ _ _ hphases => Catalog.nextPhase_of_append hnames h hphases⟩

namespace Sample

/-- A trial from day 0 on, then a discount, and from day 90 on the phase without end. -/
def musketChain : Schedule where
  current := ⟨"musket-monthly", ⟨"musket-monthly-trial", .trial, ⟨.days, 30⟩⟩, day 0⟩
  upcoming := [⟨"musket-monthly", ⟨"musket-monthly-discount", .discount, ⟨.days, 60⟩⟩, day 30⟩,
    ⟨"musket-monthly", ⟨"musket-monthly-evergreen", .evergreen, ⟨.unlimited, 0⟩⟩, day 90⟩]

end Sample

/-- Ten days into the discount the next phase is the one without end, also for a caller who knows of
the trial only. -/
theorem chain_walked_sample :
    phaseChain (Sample.musket 60) 0 (Sample.day 0) = .ok Sample.musketChain ∧
      Sample.musketChain.EndToEnd (Sample.musket 60) 0 (Sample.day 0) ∧
      (Sample.musketChain.moveTo (Sample.day 40)).Shows Sample.musketChain (Sample.day 40) ∧
      Catalog.nextPhase (Sample.musket 60) "musket-monthly-trial" (Sample.day 0) (Sample.day 40) =
        .ok (Sample.musketChain.moveTo (Sample.day 40)).next? := by
  have hchain : phaseChain (Sample.musket 60) 0 (Sample.day 0) = .ok Sample.musketChain := by
    rfl
  obtain ⟨hlaid, hshows, hnext⟩ := chain_walked (by decide) hchain
  exact ⟨hchain, hlaid, hshows (Sample.day 40), hnext [] _ _ rfl (Sample.day 40)⟩

end Tenure
