import Mathlib.Data.List.TakeWhile
import Tenure.Proofs.Filing
import Tenure.Proofs.Order
import Tenure.Repair.Plan

/-!
# The sweep of a repair

A replay carries out proposals and enters phases in one sweep through time. `performAll_induct`
takes the sweep apart into its single moves, each made with the first prospect or the first
proposal in line: what every move keeps holds in the end. The sweep comes to its end if what every
move keeps lets the proposals be carried out (`performAll_succeeds`).

The invariant that carries the sweep is `Sweep`: what has been laid down for a subscription lies
before all that is still in line for it. So each new event goes behind the others both by date and
by ordering, it takes nothing away from them, and the history of every subscription is settled at
every moment.
-/

namespace Tenure

theorem mapM_eq_ok {ε α β : Type} {f : α → Except ε β} {xs : List α} {ys : List β} :
    xs.mapM f = .ok ys ↔ List.Forall₂ (fun x y => f x = .ok y) xs ys := by
  induction xs generalizing ys with
  | nil =>
    rw [List.mapM_nil, pure_eq_ok, List.forall₂_nil_left_iff]
    exact eq_comm
  | cons x xs ih =>
    simp only [List.mapM_cons, bind_eq_ok, pure_eq_ok, ih, List.forall₂_cons_left_iff]
    constructor
    · rintro ⟨y, hy, ys, hys, rfl⟩
      exact ⟨y, ys, hy, hys, rfl⟩
    · rintro ⟨y, ys, hy, hys, rfl⟩
      exact ⟨y, hy, ys, hys, rfl⟩

/-- What the first of a list in order passes on to all behind it holds of each. -/
theorem forall_of_head? {α : Type} {R : α → α → Prop} {P : α → Prop} {xs : List α}
    (h : xs.Pairwise R) (hpass : ∀ a b, R a b → P a → P b) (hfront : ∀ x ∈ xs.head?, P x) :
    ∀ x ∈ xs, P x := by
  cases h with
  | nil => simp
  | cons hx _ =>
    have hfirst := hfront _ rfl
    exact List.forall_mem_cons.2 ⟨hfirst, fun y hy => hpass _ y (hx y hy) hfirst⟩

/-! ## Moves -/

namespace Rework

/-- The subscription with one more new event. -/
def adding (w : Rework) (e : Event) : Rework := { w with added := w.added ++ [e] }

/-- The subscription without the new events worked out so far. -/
def bare (w : Rework) : Rework := { w with added := [] }

variable (w : Rework) (e : Event)

@[simp] theorem adding_id : (w.adding e).id = w.id := rfl
@[simp] theorem adding_bare : (w.adding e).bare = w.bare := rfl
@[simp] theorem adding_kept : (w.adding e).kept = w.kept := rfl
@[simp] theorem adding_proposals : (w.adding e).proposals = w.proposals := rfl
@[simp] theorem adding_subscription : (w.adding e).subscription = w.subscription := rfl
@[simp] theorem adding_added : (w.adding e).added = w.added ++ [e] := rfl
@[simp] theorem adding_events : (w.adding e).events = w.events ++ [e] := by
  simp [events, adding]

variable {w} {w' : Rework}

theorem bare_eq_iff : w.bare = w'.bare ↔ w' = { w with added := w'.added } := by
  cases w
  cases w'
  simp [bare, eq_comm]

end Rework

namespace Replay

variable {cx : ReplayContext} {r r' : Replay} {ops : List Operation}

/-- The event that a replay records next. -/
def next (cx : ReplayContext) (r : Replay) (i : SubscriptionId) (date : Instant)
    (payload : Payload) : Event :=
  { cx.stamp.event (cx.ids r.count) ⟨i, date, payload⟩ with
    ordering := cx.firstOrdering + r.count }

section Next

variable (cx : ReplayContext) (r : Replay) (i : SubscriptionId) (date : Instant)
  (payload : Payload)

@[simp] theorem next_id : (next cx r i date payload).id = cx.ids r.count := rfl
@[simp] theorem next_subscription : (next cx r i date payload).subscription = i := rfl
@[simp] theorem next_effective : (next cx r i date payload).effective = date := rfl
@[simp] theorem next_payload : (next cx r i date payload).payload = payload := rfl
@[simp] theorem next_type : (next cx r i date payload).type = payload.type := rfl
@[simp] theorem next_ordering :
    (next cx r i date payload).ordering = cx.firstOrdering + r.count := rfl

@[simp] theorem record_count : (r.record cx i date payload).count = r.count + 1 := rfl
@[simp] theorem record_prospects : (r.record cx i date payload).prospects = r.prospects := rfl

theorem record_works : (r.record cx i date payload).works =
    r.works.map fun w => if w.id == i then w.adding (next cx r i date payload) else w := rfl

end Next

@[simp] theorem record_bare (i : SubscriptionId) (date : Instant) (payload : Payload) :
    (r.record cx i date payload).works.map Rework.bare = r.works.map Rework.bare := by
  rw [record_works, List.map_map]
  apply List.map_congr_left
  intro w _
  rw [Function.comp_apply]
  split <;> rfl

@[simp] theorem enter_bare (p : Prospect) :
    (r.enter cx p).works.map Rework.bare = r.works.map Rework.bare := by
  unfold enter
  split
  · exact record_bare _ _ _
  · rfl

theorem map_ids_of_bare {works works' : List Rework}
    (h : works'.map Rework.bare = works.map Rework.bare) :
    works'.map (·.id) = works.map (·.id) := by
  have hid : (fun w : Rework => w.id) = (·.id) ∘ Rework.bare := rfl
  rw [hid, ← List.map_map, ← List.map_map, h]

theorem mem_record_works {i : SubscriptionId} {date : Instant} {payload : Payload} {w' : Rework} :
    w' ∈ (r.record cx i date payload).works ↔ (w' ∈ r.works ∧ w'.id ≠ i) ∨
      ∃ w ∈ r.works, w.id = i ∧ w' = w.adding (next cx r i date payload) := by
  rw [record_works, List.mem_map]
  constructor
  · rintro ⟨w, hw, rfl⟩
    by_cases hid : w.id = i
    · exact .inr ⟨w, hw, hid, by simp [hid]⟩
    · exact .inl ⟨by simpa [hid] using hw, by simp [hid]⟩
  · rintro (⟨hw, hid⟩ | ⟨w, hw, hid, rfl⟩)
    · exact ⟨w', hw, by simp [hid]⟩
    · exact ⟨w, hw, by simp [hid]⟩

theorem mem_events_record {i : SubscriptionId} {date : Instant} {payload : Payload} {w' : Rework}
    {e : Event} (hw' : w' ∈ (r.record cx i date payload).works) (he : e ∈ w'.events) :
    (∃ w ∈ r.works, w.id = w'.id ∧ e ∈ w.events) ∨
      (w'.id = i ∧ e = next cx r i date payload) := by
  rcases mem_record_works.1 hw' with ⟨hw', -⟩ | ⟨w, hw, hid, rfl⟩
  · exact .inl ⟨w', hw', rfl, he⟩
  · rw [Rework.adding_events, List.mem_append, List.mem_singleton] at he
    rcases he with he | he
    · exact .inl ⟨w, hw, rfl, he⟩
    · exact .inr ⟨hid, he⟩

theorem mem_added_record {i : SubscriptionId} {date : Instant} {payload : Payload} {w' : Rework}
    {e : Event} (hw' : w' ∈ (r.record cx i date payload).works) (he : e ∈ w'.added) :
    (∃ w ∈ r.works, e ∈ w.added) ∨ e = next cx r i date payload := by
  rcases mem_record_works.1 hw' with ⟨hw', -⟩ | ⟨w, hw, -, rfl⟩
  · exact .inl ⟨w', hw', he⟩
  · rw [Rework.adding_added, List.mem_append, List.mem_singleton] at he
    exact he.imp_left fun he => ⟨w, hw, he⟩

theorem enter_prospects (p : Prospect) (ps : List Prospect) :
    enter cx { r with prospects := ps } p = { enter cx r p with prospects := ps } := by
  unfold enter
  have hwork : work? { r with prospects := ps } p.subscription = r.work? p.subscription := rfl
  rw [hwork]
  cases (r.work? p.subscription).bind (·.liveAt? p.date) <;> rfl

theorem foldl_enter_induct {P : Replay → Prop} {c : Prospect → Prop}
    (henter : ∀ r p ps, r.prospects = p :: ps → c p → P r →
      P (enter cx { r with prospects := ps } p))
    {ps rest : List Prospect} (hps : ∀ p ∈ ps, c p)
    (h : P { r with prospects := ps ++ rest }) :
    P (ps.foldl (enter cx) { r with prospects := rest }) := by
  induction ps generalizing r with
  | nil => exact h
  | cons p ps ih =>
    have hp : P (enter cx { r with prospects := ps ++ rest } p) :=
      henter { r with prospects := p :: (ps ++ rest) } p _ rfl (hps p (by simp)) h
    rw [enter_prospects] at hp
    rw [List.foldl_cons, enter_prospects]
    exact ih (fun q hq => hps q (by simp [hq])) hp

@[simp] theorem foldl_enter_prospects (ps : List Prospect) :
    (ps.foldl (enter cx) r).prospects = r.prospects := by
  induction ps generalizing r with
  | nil => rfl
  | cons p ps ih =>
    have hp : enter cx r p = { enter cx r p with prospects := r.prospects } :=
      enter_prospects p r.prospects
    rw [List.foldl_cons, ih, hp]

/-- Advancing to a date enters the prospects of earlier dates. -/
theorem advanceTo_induct {P : Replay → Prop} {date : Instant}
    (henter : ∀ r p ps, r.prospects = p :: ps → p.date < date → P r →
      P (enter cx { r with prospects := ps } p))
    (h : P r) : P (r.advanceTo cx date) := by
  refine foldl_enter_induct (c := fun p => p.date < date) henter (fun p hp => ?_) ?_
  · simpa using List.mem_takeWhile_imp hp
  · rwa [List.takeWhile_append_dropWhile]

theorem le_of_advanceTo {date : Instant} :
    ∀ p ∈ (r.advanceTo cx date).prospects.head?, date ≤ p.date := by
  intro p hp
  rw [advanceTo, foldl_enter_prospects] at hp
  have := List.head?_dropWhile_not (·.date < date) r.prospects
  rw [hp] at this
  simpa [Instant.lt_def, Instant.le_def] using this

section Moves

/-! The moves of a sweep keep `P`. A phase is entered before any proposal of a later date, and a
proposal is carried out before any phase of its own date. -/

variable {P : Replay → List Operation → Prop}
  (henter : ∀ r p ps ops, r.prospects = p :: ps →
    (∀ op ∈ ops.head?, p.date < op.proposal.effective) → P r ops →
    P (enter cx { r with prospects := ps } p) ops)
  (hperform : ∀ r op ops w payload prospects,
    (∀ p ∈ r.prospects.head?, op.proposal.effective ≤ p.date) →
    r.work? op.subscription = some w → w.carryOut cx op.proposal = .ok (payload, prospects) →
    P r (op :: ops) →
    P ((r.record cx op.subscription op.proposal.effective payload).replaceProspects
      op.subscription prospects) ops)
  (hskip : ∀ r op ops, r.work? op.subscription = none → P r (op :: ops) → P r ops)

include henter in
theorem advanceTo_of_moves {op : Operation} (hr : P r (op :: ops)) :
    P (r.advanceTo cx op.proposal.effective) (op :: ops) :=
  advanceTo_induct (P := (P · (op :: ops)))
    (fun r p ps hps hp => henter r p ps (op :: ops) hps (by simpa using hp)) hr

include henter hperform hskip

theorem perform_of_moves {op : Operation} (h : r.perform cx op = .ok r') (hr : P r (op :: ops)) :
    P r' ops := by
  have hadvanced := advanceTo_of_moves henter hr
  simp only [perform] at h
  split at h
  next hw =>
    cases h
    exact hskip _ _ _ hw hadvanced
  next w hw =>
    split at h
    · cases h
    next payload prospects hout =>
      cases h
      exact hperform _ _ _ _ _ _ le_of_advanceTo hw hout hadvanced

/-- What holds at the start of a sweep and is kept by each of its moves holds in the end, when
nothing is in line any more. -/
theorem performAll_induct (h : r.performAll cx ops = .ok r') (hr : P r ops) :
    P r' [] ∧ r'.prospects = [] := by
  induction ops generalizing r with
  | nil =>
    cases h
    refine ⟨?_, foldl_enter_prospects _⟩
    refine foldl_enter_induct (P := (P · [])) (c := fun _ => True) ?_ (fun _ _ => trivial) ?_
    · exact fun r p ps hps _ => henter r p ps [] hps (by simp)
    · rwa [List.append_nil]
  | cons op ops ih =>
    rw [performAll] at h
    cases hperf : r.perform cx op with
    | error err => simp [hperf] at h
    | ok r'' =>
      rw [hperf] at h
      exact ih h (perform_of_moves henter hperform hskip hperf hr)

/-- A sweep comes to its end if what its moves keep lets every proposal be carried out. -/
theorem performAll_succeeds (hcan : ∀ r op ops w,
      (∀ p ∈ r.prospects.head?, op.proposal.effective ≤ p.date) →
      r.work? op.subscription = some w → P r (op :: ops) →
      ∃ out, w.carryOut cx op.proposal = .ok out)
    (hr : P r ops) : ∃ r', r.performAll cx ops = .ok r' := by
  induction ops generalizing r with
  | nil => exact ⟨_, rfl⟩
  | cons op ops ih =>
    obtain ⟨r'', hperf⟩ : ∃ r'', r.perform cx op = .ok r'' := by
      simp only [perform]
      cases hw : (r.advanceTo cx op.proposal.effective).work? op.subscription with
      | none => exact ⟨_, rfl⟩
      | some w =>
        obtain ⟨out, hout⟩ :=
          hcan _ _ _ _ le_of_advanceTo hw (advanceTo_of_moves henter hr)
        simp only [hout]
        exact ⟨_, rfl⟩
    rw [performAll, hperf]
    exact ih (perform_of_moves henter hperform hskip hperf hr)

end Moves

end Replay

/-! ## Agendas -/

namespace Operation

theorem le_total (a b : Operation) : le a b = true ∨ le b a = true := by
  simp only [le, Bool.or_eq_true, Bool.and_eq_true, decide_eq_true_eq, beq_iff_eq,
    Instant.lt_def, Instant.ext_iff]
  omega

theorem le_trans (a b c : Operation) (hab : le a b = true) (hbc : le b c = true) :
    le a c = true := by
  simp only [le, Bool.or_eq_true, Bool.and_eq_true, decide_eq_true_eq, beq_iff_eq,
    Instant.lt_def, Instant.ext_iff] at *
  omega

theorem pairwise_sortBy_le (ops : List Operation) :
    (sortBy le ops).Pairwise (fun a b => a.proposal.effective ≤ b.proposal.effective) := by
  refine (pairwise_sortBy le_total le_trans ops).imp fun {a b} h => ?_
  simp only [le, Bool.or_eq_true, Bool.and_eq_true, decide_eq_true_eq, beq_iff_eq,
    Instant.lt_def, Instant.ext_iff] at h
  rw [Instant.le_def]
  omega

end Operation

namespace Prospect

theorem le_total (a b : Prospect) : le a b = true ∨ le b a = true := by
  simp only [le, Bool.or_eq_true, Bool.and_eq_true, decide_eq_true_eq, beq_iff_eq,
    Instant.lt_def, Instant.ext_iff]
  omega

theorem le_trans (a b c : Prospect) (hab : le a b = true) (hbc : le b c = true) :
    le a c = true := by
  simp only [le, Bool.or_eq_true, Bool.and_eq_true, decide_eq_true_eq, beq_iff_eq,
    Instant.lt_def, Instant.ext_iff] at *
  omega

theorem pairwise_sortBy_le (ps : List Prospect) :
    (sortBy le ps).Pairwise (fun a b => a.date ≤ b.date) := by
  refine (pairwise_sortBy le_total le_trans ps).imp fun {a b} h => ?_
  simp only [le, Bool.or_eq_true, Bool.and_eq_true, decide_eq_true_eq, beq_iff_eq,
    Instant.lt_def, Instant.ext_iff] at h
  rw [Instant.le_def]
  omega

end Prospect

/-! ## What a proposal does -/

namespace Rework

variable {cx : ReplayContext} {w : Rework} {p : Proposal}

theorem planFor_eq_ok {plan : Plan} {spec : PlanSpec} :
    w.planFor cx p = .ok (plan, spec) ↔ p.plan = some spec ∧
      cx.catalog.findPlan spec p.effective = .ok plan ∧
      plan.product.category = w.subscription.category := by
  unfold planFor
  cases hplan : p.plan with
  | none => simp
  | some asked =>
    simp only [bind_eq_ok, liftCatalog_eq_ok, guard_eq_ok, pure_eq_ok, Prod.mk.injEq, not_not,
      Option.some.injEq]
    constructor
    · rintro ⟨_, hfind, hcat, rfl, rfl⟩
      exact ⟨rfl, hfind, hcat⟩
    · rintro ⟨rfl, hfind, hcat⟩
      exact ⟨plan, hfind, hcat, rfl, rfl⟩

/-- The three kinds of proposals that can be carried out: building anew what is not on a plan,
changing and cancelling what is. -/
inductive Carried (w : Rework) (cx : ReplayContext) (p : Proposal) :
    Payload → List Prospect → Prop
  | creation {plan : Plan} {spec : PlanSpec} {schedule : Schedule}
      (type : p.type.isRecreation = true)
      (found : w.planFor cx p = .ok (plan, spec))
      (align : cx.catalog.alignOnCreate (w.anchors cx) plan p.phaseType spec.priceList p.effective
        p.effective = .ok schedule) :
      Carried w cx p
        (if p.type = .create then .create (targetOf plan spec schedule)
          else .reCreate (targetOf plan spec schedule))
        (Prospect.ofSchedule w.id schedule p.effective)
  | change {current : Target} {plan : Plan} {spec : PlanSpec} {schedule : Schedule}
      (type : p.type = .change)
      (live : (w.liveAt? p.effective).bind (·.target?) = some current)
      (found : w.planFor cx p = .ok (plan, spec))
      (align : cx.catalog.alignOnChange (w.anchors cx) current plan spec.priceList p.effective
        p.effective = .ok schedule) :
      Carried w cx p (.change (targetOf plan spec schedule))
        (Prospect.ofSchedule w.id schedule p.effective)
  | cancel (type : p.type = .cancel) (live : (w.liveAt? p.effective).isSome) :
      Carried w cx p .cancel []

theorem Carried.type_ne {payload : Payload} {prospects : List Prospect}
    (h : w.Carried cx p payload prospects) : payload.type ≠ .uncancel := by
  cases h with
  | creation => split <;> nofun
  | change => nofun
  | cancel => nofun

theorem Carried.prospect {payload : Payload} {prospects : List Prospect}
    (h : w.Carried cx p payload prospects) :
    ∀ q ∈ prospects, q.subscription = w.id ∧ p.effective < q.date := by
  have hschedule (schedule : Schedule) (q : Prospect)
      (hq : q ∈ Prospect.ofSchedule w.id schedule p.effective) :
      q.subscription = w.id ∧ p.effective < q.date := by
    simp only [Prospect.ofSchedule, List.mem_map, List.mem_filter, decide_eq_true_eq] at hq
    obtain ⟨phase, ⟨-, hlt⟩, rfl⟩ := hq
    exact ⟨rfl, hlt⟩
  cases h with
  | creation => exact hschedule _
  | change => exact hschedule _
  | cancel => simp

theorem carried_of_eq_ok {payload : Payload} {prospects : List Prospect}
    (h : w.carryOut cx p = .ok (payload, prospects)) : w.Carried cx p payload prospects := by
  unfold carryOut at h
  cases htype : p.type <;> simp only [htype] at h
  case create | reCreate =>
    have hrecreation : p.type.isRecreation = true := by
      rw [htype]
      rfl
    simp only [guard_eq_ok, bind_eq_ok, pure_eq_ok, Prod.mk.injEq] at h
    obtain ⟨-, ⟨plan, spec⟩, hplan, schedule, halign, rfl, rfl⟩ := h
    simpa only [htype] using Carried.creation hrecreation hplan halign
  case change =>
    cases hlive : (w.liveAt? p.effective).bind (·.target?) with
    | none => simp [hlive, throw_ne_ok] at h
    | some current =>
      simp only [hlive, bind_eq_ok, pure_eq_ok, Prod.mk.injEq] at h
      obtain ⟨⟨plan, spec⟩, hplan, schedule, halign, rfl, rfl⟩ := h
      exact .change htype hlive hplan halign
  case cancel =>
    simp only [guard_eq_ok, pure_eq_ok, Prod.mk.injEq] at h
    obtain ⟨hlive, rfl, rfl⟩ := h
    exact .cancel htype (by simpa [Option.isSome_iff_ne_none] using hlive)
  all_goals simp [throw_ne_ok] at h

end Rework

/-! ## The invariant -/

/-- What a sweep keeps: all that is in line for a subscription lies behind its events so far, which
are settled, and no two events share an identifier. -/
structure Sweep (cx : ReplayContext) (r : Replay) (ops : List Operation) : Prop where
  ids : (r.works.map (·.id)).Nodup
  prospects : r.prospects.Pairwise (fun a b => a.date ≤ b.date)
  proposals : ops.Pairwise (fun a b => a.proposal.effective ≤ b.proposal.effective)
  inLine : ∀ w ∈ r.works, ∀ e ∈ w.events,
    (∀ p ∈ r.prospects, p.subscription = w.id → e.effective ≤ p.date) ∧
      ∀ op ∈ ops, op.subscription = w.id → e.effective ≤ op.proposal.effective
  settled : ∀ w ∈ r.works, Settled w.events
  orderings : ∀ w ∈ r.works, ∀ e ∈ w.events, e.ordering < cx.firstOrdering + r.count
  injective : Function.Injective cx.ids
  unused : ∀ w ∈ r.works, ∀ e ∈ w.events, ∀ n, r.count ≤ n → e.id ≠ cx.ids n
  distinct : ((r.works.flatMap (·.events)).map (·.id)).Nodup
  own : ∀ w ∈ r.works, ∀ e ∈ w.events, e.subscription = w.id
  uncancels : ∀ w ∈ r.works, ∀ e ∈ w.added, e.type ≠ .uncancel
  drawn : ∀ w ∈ r.works, ∀ e ∈ w.added, ∃ n, e.id = cx.ids n

namespace Sweep

variable {cx : ReplayContext} {r : Replay} {ops ops' : List Operation} {ps : List Prospect}
  {i : SubscriptionId} {date : Instant} {payload : Payload}

theorem perm_record (hids : (r.works.map (·.id)).Nodup) (i : SubscriptionId) (date : Instant)
    (payload : Payload) :
    ((r.record cx i date payload).works.flatMap (·.events)).Perm
        (r.works.flatMap (·.events)) ∨
      ((r.record cx i date payload).works.flatMap (·.events)).Perm
        (Replay.next cx r i date payload :: r.works.flatMap (·.events)) := by
  rw [Replay.record_works]
  generalize Replay.next cx r i date payload = e
  generalize r.works = works at hids
  induction works with
  | nil => exact .inl (.refl _)
  | cons w works ih =>
    obtain ⟨hnew, hids⟩ := List.nodup_cons.1 hids
    simp only [List.map_cons, List.flatMap_cons]
    by_cases hid : w.id = i
    · have hrest : works.map (fun w => if w.id == i then w.adding e else w) = works := by
        refine (List.map_congr_left fun w' hw' => ?_).trans (List.map_id _)
        have hne : w'.id ≠ i := fun h => hnew (List.mem_map.2 ⟨w', hw', h.trans hid.symm⟩)
        simp [hne]
      rw [hrest, if_pos (by simpa using hid), Rework.adding_events]
      right
      rw [List.append_assoc]
      exact List.perm_middle
    · rw [if_neg (by simpa using hid)]
      rcases ih hids with h | h
      · exact .inl (h.append_left _)
      · exact .inr ((h.append_left _).trans List.perm_middle)

/-- An event that lies behind those of its subscription and before all in line for it may be
recorded. -/
theorem record (h : Sweep cx r ops) (htype : payload.type ≠ .uncancel)
    (hdate : ∀ w ∈ r.works, w.id = i → ∀ e ∈ w.events, e.effective ≤ date)
    (hps : ps.Pairwise (fun a b => a.date ≤ b.date))
    (hops : ops'.Pairwise (fun a b => a.proposal.effective ≤ b.proposal.effective))
    (hline : ∀ w ∈ r.works, ∀ e ∈ w.events,
      (∀ p ∈ ps, p.subscription = w.id → e.effective ≤ p.date) ∧
        ∀ op ∈ ops', op.subscription = w.id → e.effective ≤ op.proposal.effective)
    (hnext : (∀ p ∈ ps, p.subscription = i → date ≤ p.date) ∧
      ∀ op ∈ ops', op.subscription = i → date ≤ op.proposal.effective) :
    Sweep cx { r.record cx i date payload with prospects := ps } ops' where
  ids := by
    show ((r.record cx i date payload).works.map (·.id)).Nodup
    rw [Replay.map_ids_of_bare (Replay.record_bare i date payload)]
    exact h.ids
  prospects := hps
  proposals := hops
  inLine := by
    intro w' hw' e he
    rcases Replay.mem_events_record hw' he with ⟨w, hw, hid, he⟩ | ⟨hid, rfl⟩
    · exact hid ▸ hline w hw e he
    · simpa [hid] using hnext
  settled := by
    intro w' hw'
    rcases Replay.mem_record_works.1 hw' with ⟨hw', -⟩ | ⟨w, hw, hid, rfl⟩
    · exact h.settled w' hw'
    · rw [Rework.adding_events]
      exact (h.settled w hw).append_one (h.orderings w hw) (hdate w hw hid) htype
  orderings := by
    intro w' hw' e he
    show e.ordering < cx.firstOrdering + (r.count + 1)
    rcases Replay.mem_events_record hw' he with ⟨w, hw, -, he⟩ | ⟨-, rfl⟩
    · have := h.orderings w hw e he
      omega
    · rw [Replay.next_ordering]
      omega
  injective := h.injective
  unused := by
    intro w' hw' e he n hn
    have hlt : r.count < n := hn
    rcases Replay.mem_events_record hw' he with ⟨w, hw, -, he⟩ | ⟨-, rfl⟩
    · exact h.unused w hw e he n (Nat.le_of_lt hlt)
    · exact fun hid => Nat.ne_of_lt hlt (h.injective hid)
  distinct := by
    show (((r.record cx i date payload).works.flatMap (·.events)).map (·.id)).Nodup
    rcases perm_record h.ids i date payload with hp | hp
    · exact (hp.map _).nodup_iff.2 h.distinct
    · refine (hp.map _).nodup_iff.2 (List.nodup_cons.2 ⟨fun hmem => ?_, h.distinct⟩)
      obtain ⟨e, he, hid⟩ := List.mem_map.1 hmem
      obtain ⟨w, hw, he⟩ := List.mem_flatMap.1 he
      exact h.unused w hw e he r.count (Nat.le_refl _) hid
  own := by
    intro w' hw' e he
    rcases Replay.mem_events_record hw' he with ⟨w, hw, hid, he⟩ | ⟨hid, rfl⟩
    · exact (h.own w hw e he).trans hid
    · exact hid.symm
  uncancels := by
    intro w' hw' e he
    rcases Replay.mem_added_record hw' he with ⟨w, hw, he⟩ | rfl
    · exact h.uncancels w hw e he
    · exact htype
  drawn := by
    intro w' hw' e he
    rcases Replay.mem_added_record hw' he with ⟨w, hw, he⟩ | rfl
    · exact h.drawn w hw e he
    · exact ⟨r.count, rfl⟩

theorem work?_mem {w : Rework} (h : r.work? i = some w) : w ∈ r.works ∧ w.id = i :=
  ⟨List.mem_of_find?_eq_some h, by simpa using List.find?_some h⟩

theorem withProspects (h : Sweep cx r ops) (hps : ps.Sublist r.prospects) :
    Sweep cx { r with prospects := ps } ops :=
  { h with
    prospects := h.prospects.sublist hps
    inLine := fun w hw e he =>
      ⟨fun p hp => (h.inLine w hw e he).1 p (hps.subset hp), (h.inLine w hw e he).2⟩ }

theorem lt_of_next (h : Sweep cx r ops) (hnext : ∀ op ∈ ops.head?, date < op.proposal.effective) :
    ∀ op ∈ ops, date < op.proposal.effective :=
  forall_of_head? h.proposals (fun _ _ hle hlt => Int.lt_of_lt_of_le hlt hle) hnext

theorem enter (h : Sweep cx r ops) {p : Prospect} (hfront : r.prospects = p :: ps)
    (hnext : ∀ op ∈ ops.head?, p.date < op.proposal.effective) :
    Sweep cx (Replay.enter cx { r with prospects := ps } p) ops := by
  have hsub : ps.Sublist r.prospects := hfront ▸ List.sublist_cons_self p ps
  unfold Replay.enter
  split
  · obtain ⟨hp, hps⟩ := List.pairwise_cons.1 (hfront ▸ h.prospects)
    show Sweep cx { Replay.record cx { r with prospects := ps } p.subscription p.date
      (.phase p.phase) with prospects := ps } ops
    refine (h.withProspects hsub).record nofun ?_ hps h.proposals
      (h.withProspects hsub).inLine ⟨fun q hq _ => hp q hq, fun op hop _ => ?_⟩
    · exact fun w hw hid e he => (h.inLine w hw e he).1 p (by simp [hfront]) hid.symm
    · exact Int.le_of_lt (h.lt_of_next hnext op hop)
  · exact h.withProspects hsub

theorem skip {op : Operation} (h : Sweep cx r (op :: ops)) : Sweep cx r ops :=
  { h with
    proposals := (List.pairwise_cons.1 h.proposals).2
    inLine := fun w hw e he =>
      ⟨(h.inLine w hw e he).1, fun op hop => (h.inLine w hw e he).2 op (by simp [hop])⟩ }

theorem perform {op : Operation} {w : Rework} {prospects : List Prospect}
    (h : Sweep cx r (op :: ops)) (hw : r.work? op.subscription = some w)
    (hout : w.Carried cx op.proposal payload prospects) :
    Sweep cx ((r.record cx op.subscription op.proposal.effective payload).replaceProspects
      op.subscription prospects) ops := by
  obtain ⟨hop, hops⟩ := List.pairwise_cons.1 h.proposals
  have hmem : ∀ p ∈ sortBy Prospect.le
      (r.prospects.filter (·.subscription != op.subscription) ++ prospects),
      (p ∈ r.prospects ∧ p.subscription ≠ op.subscription) ∨ p ∈ prospects := by
    intro p hp
    simpa using hp
  show Sweep cx { r.record cx op.subscription op.proposal.effective payload with
    prospects := sortBy Prospect.le
      (r.prospects.filter (·.subscription != op.subscription) ++ prospects) } ops
  refine h.record hout.type_ne ?_
    (Prospect.pairwise_sortBy_le _) hops (fun w' hw' e he => ⟨fun p hp hid => ?_, ?_⟩)
    ⟨fun p hp hid => ?_, fun op' hop' _ => hop op' hop'⟩
  · exact fun w' hw' hid e he => (h.inLine w' hw' e he).2 op (by simp) hid.symm
  · rcases hmem p hp with ⟨hp, -⟩ | hp
    · exact (h.inLine w' hw' e he).1 p hp hid
    · have hown : op.subscription = w'.id := by
        rw [← hid, (hout.prospect p hp).1, (work?_mem hw).2]
      exact Int.le_trans ((h.inLine w' hw' e he).2 op (by simp) hown)
        (Int.le_of_lt (hout.prospect p hp).2)
  · exact fun op' hop' => (h.inLine w' hw' e he).2 op' (by simp [hop'])
  · rcases hmem p hp with ⟨-, hne⟩ | hp
    · exact absurd hid hne
    · exact Int.le_of_lt (hout.prospect p hp).2

theorem performAll {r' : Replay} (h : Sweep cx r ops) (hr : r.performAll cx ops = .ok r') :
    Sweep cx r' [] :=
  (Replay.performAll_induct (P := Sweep cx) (fun _ _ _ _ hfront hnext h => h.enter hfront hnext)
    (fun _ _ _ _ _ _ _ hw hout h => h.perform hw (Rework.carried_of_eq_ok hout))
    (fun _ _ _ _ h => h.skip) hr h).1

end Sweep

end Tenure
