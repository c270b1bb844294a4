import Tenure.Proofs.Rebuilding

/-!
# Subscriptions replayed apart

A repair carries out the proposals of all edited subscriptions in one sweep through time. Each
subscription could also be replayed by itself (`Rework.replayAlone`), which takes one proposal
after the other and, in front of it, the phases pending from the one before.

**Theorem (`replayed_apart`).** The sweep of a repair that passes its checks succeeds if and only if
every edited subscription can be replayed by itself. Then the new events say the same.

The sweep does three things that a subscription by itself does not:

* it enters a phase as soon as it comes to a later proposal, whoever that is for. By itself the
  subscription has the phase pending until its own next proposal, which lies behind it as well;
* it enters a phase only if the subscription is on a plan. It always is: phases are in prospect
  behind a creation, a change, or a last transition that is no cancellation, and a cancellation
  leaves none of them;
* it numbers the events of all subscriptions in one row. New events stand behind those kept either
  way, so a proposal finds the subscription on the same target (`Rework.Rising.carryOut_saying`).

So the sweep stays in step with each replay (`InStep`), in every one of its moves. Nothing is asked
of the bundle: its events may share identifiers or orderings, and so may its subscriptions.
-/

namespace Tenure

/-! ## The replay of one subscription -/

/-- New events of a subscription that say `ts`, numbered from `n` on. -/
def ReplayContext.events (cx : ReplayContext) (i : SubscriptionId) (n : Nat) :
    List TimedPayload → List Event
  | [] => []
  | t :: ts =>
    { cx.stamp.event (cx.ids n) ⟨i, t.effective, t.payload⟩ with
      ordering := cx.firstOrdering + n } :: cx.events i (n + 1) ts

namespace Rework

/-- The subscription with new events that say `ts`, and no others. -/
def saying (w : Rework) (cx : ReplayContext) (ts : List TimedPayload) : Rework :=
  { w with added := cx.events w.id 0 ts }

/-- Carry out proposals of the subscription in the order given, with `said` for what its new events
say so far. The phases in prospect that lie before a proposal come first, and those that it puts in
prospect take the place of the others. -/
def replayFrom (w : Rework) (cx : ReplayContext) (said : List TimedPayload)
    (pending : List Prospect) : List Proposal → Except Error (List TimedPayload)
  | [] => .ok (said ++ pending.map (·.timed))
  | p :: ps => do
    let before := said ++ (pending.filter (·.date < p.effective)).map (·.timed)
    let (payload, prospects) ← (w.saying cx before).carryOut cx p
    w.replayFrom cx (before ++ [⟨p.effective, payload⟩]) prospects ps

/-- Replay the subscription as if no other was edited. The result is what its new events say. -/
def replayAlone (w : Rework) (cx : ReplayContext) : Except Error (List TimedPayload) := do
  let owed ← w.owedPhases cx
  w.replayFrom cx [] owed w.proposals

end Rework

namespace ReplayContext

variable {cx : ReplayContext} {i : SubscriptionId} {n : Nat} {ts : List TimedPayload}

@[simp] theorem map_timed_events : (cx.events i n ts).map (·.timed) = ts := by
  induction ts generalizing n with
  | nil => rfl
  | cons t ts ih =>
    rw [events, List.map_cons, ih]
    rfl

theorem le_ordering_events : ∀ e ∈ cx.events i n ts, cx.firstOrdering + n ≤ e.ordering := by
  induction ts generalizing n with
  | nil => simp [events]
  | cons t ts ih =>
    refine List.forall_mem_cons.2 ⟨Nat.le_refl _, fun e he => ?_⟩
    exact Nat.le_of_succ_le (ih e he)

theorem pairwise_events :
    (cx.events i n ts).Pairwise (fun a b => a.ordering < b.ordering) := by
  induction ts generalizing n with
  | nil => exact .nil
  | cons t ts ih => exact List.pairwise_cons.2 ⟨le_ordering_events, ih⟩

end ReplayContext

section SayTheSame

/-! Events that say the same are alike in all but their numbers. -/

variable {es fs : List Event} (h : fs.map (·.timed) = es.map (·.timed))

include h

theorem forall_timed {P : TimedPayload → Prop} (hes : ∀ e ∈ es, P e.timed) :
    ∀ f ∈ fs, P f.timed := by
  have hall : ∀ t ∈ es.map (·.timed), P t := List.forall_mem_map.2 hes
  exact List.forall_mem_map.1 (h ▸ hall)

theorem pairwise_timed {R : TimedPayload → TimedPayload → Prop}
    (hes : es.Pairwise (fun a b => R a.timed b.timed)) :
    fs.Pairwise (fun a b => R a.timed b.timed) := by
  have hall : (es.map (·.timed)).Pairwise R := List.pairwise_map.2 hes
  exact List.pairwise_map.1 (h ▸ hall)

theorem payload_timed : fs.map (·.payload) = es.map (·.payload) := by
  have hpayload (gs : List Event) : gs.map (·.payload) = (gs.map (·.timed)).map (·.payload) := by
    rw [List.map_map]
    rfl
  rw [hpayload, h, ← hpayload]

end SayTheSame

namespace Rework

variable {cx : ReplayContext} {w w' : Rework} {p : Proposal} {said : List TimedPayload}
  {pending : List Prospect} {ps : List Proposal}

/-! ## New events under other numbers -/

/-- What a proposal does to a subscription depends on the target that this is on, and on nothing
else about its new events. -/
theorem carryOut_congr (hbare : w'.bare = w.bare)
    (htarget : (w'.liveAt? p.effective).bind (·.target?) =
      (w.liveAt? p.effective).bind (·.target?)) : w'.carryOut cx p = w.carryOut cx p := by
  have hsome : (w'.liveAt? p.effective).isSome = (w.liveAt? p.effective).isSome := by
    rw [isSome_liveAt?, isSome_liveAt?, htarget]
  have hnone : (w'.liveAt? p.effective).isNone = (w.liveAt? p.effective).isNone := by
    rw [← Option.not_isSome, ← Option.not_isSome, hsome]
  obtain ⟨es, rfl⟩ : ∃ es, w = { w' with added := es } := ⟨_, bare_eq_iff.1 hbare⟩
  unfold carryOut
  simp only [hsome, hnone, htarget]
  rfl

/-! The replay of a subscription by itself begins with what is kept. -/

theorem saying_congr (hbare : w'.bare = w.bare) : w'.saying cx said = w.saying cx said := by
  rw [bare_eq_iff.1 hbare]
  rfl

theorem replayFrom_congr (hbare : w'.bare = w.bare) :
    w'.replayFrom cx said pending ps = w.replayFrom cx said pending ps := by
  induction ps generalizing said pending with
  | nil => rfl
  | cons p ps ih => simp only [replayFrom, saying_congr hbare, ih]

theorem replayAlone_congr (hbare : w'.bare = w.bare) : w'.replayAlone cx = w.replayAlone cx := by
  have howed : w'.owedPhases cx = w.owedPhases cx := by
    rw [bare_eq_iff.1 hbare]
    rfl
  have hproposals : w'.proposals = w.proposals := congrArg (·.proposals) hbare
  simp only [replayAlone, howed, hproposals, replayFrom_congr hbare]

/-- The new events stand behind what is kept, by date and under rising orderings. -/
structure Rising (w : Rework) (cx : ReplayContext) : Prop where
  kept : Calm w.kept
  behind : ∀ e ∈ w.kept, e.ordering < cx.firstOrdering
  fresh : ∀ e ∈ w.added, cx.firstOrdering ≤ e.ordering
  rises : w.added.Pairwise (fun a b => a.ordering < b.ordering)
  dates : w.events.Pairwise (fun a b => a.effective ≤ b.effective)
  uncancels : ∀ e ∈ w.added, e.type ≠ .uncancel

theorem map_timed_saying (w : Rework) (cx : ReplayContext) :
    (w.saying cx (w.added.map (·.timed))).events.map (·.timed) = w.events.map (·.timed) := by
  rw [Rework.events, Rework.events, List.map_append, List.map_append]
  exact congrArg _ ReplayContext.map_timed_events

theorem target?_congr {date : Instant} (hcalm : Calm w.events) (hcalm' : Calm w'.events)
    (hsame : w'.events.map (·.timed) = w.events.map (·.timed))
    (hdate : ∀ e ∈ w.events, e.effective ≤ date) :
    (w'.liveAt? date).bind (·.target?) = (w.liveAt? date).bind (·.target?) := by
  have hdate' : ∀ e ∈ w'.events, e.effective ≤ date :=
    forall_timed (P := (·.effective ≤ date)) hsame hdate
  have hcursor : w'.cursor = w.cursor := Cursor.through_congr (payload_timed hsame) _
  rw [target?_liveAt? hcalm' hdate', target?_liveAt? hcalm hdate, hcursor]

namespace Rising

theorem calm (h : w.Rising cx) : Calm w.events :=
  h.kept.append h.dates
    (fun e he f hf => Nat.lt_of_lt_of_le (h.behind e he) (h.fresh f hf)) h.rises h.uncancels

theorem adding {e : Event} (h : w.Rising cx) (hfresh : cx.firstOrdering ≤ e.ordering)
    (hrise : ∀ f ∈ w.added, f.ordering < e.ordering)
    (hdate : ∀ f ∈ w.events, f.effective ≤ e.effective) (htype : e.type ≠ .uncancel) :
    (w.adding e).Rising cx where
  kept := h.kept
  behind := h.behind
  fresh := List.forall_mem_append.2 ⟨h.fresh, by simpa using hfresh⟩
  rises := List.pairwise_append.2 ⟨h.rises, List.pairwise_singleton _ _, by simpa using hrise⟩
  dates := by
    rw [adding_events]
    exact List.pairwise_append.2 ⟨h.dates, List.pairwise_singleton _ _, by simpa using hdate⟩
  uncancels := List.forall_mem_append.2 ⟨h.uncancels, by simpa using htype⟩

theorem saying (h : w.Rising cx) : (w.saying cx (w.added.map (·.timed))).Rising cx where
  kept := h.kept
  behind := h.behind
  fresh := ReplayContext.le_ordering_events
  rises := ReplayContext.pairwise_events
  dates := pairwise_timed (R := fun s t => s.effective ≤ t.effective) (map_timed_saying w cx)
    h.dates
  uncancels := forall_timed (P := (·.payload.type ≠ .uncancel)) ReplayContext.map_timed_events
    h.uncancels

theorem carryOut_saying (h : w.Rising cx) (hdate : ∀ e ∈ w.events, e.effective ≤ p.effective) :
    (w.saying cx (w.added.map (·.timed))).carryOut cx p = w.carryOut cx p :=
  carryOut_congr rfl (target?_congr h.calm h.saying.calm (map_timed_saying w cx) hdate)

end Rising

theorem Rising.next {r : Replay} {date : Instant} {payload : Payload} (h : w.Rising cx)
    (hnumbered : ∀ e ∈ w.added, e.ordering < cx.firstOrdering + r.count)
    (hdate : ∀ e ∈ w.events, e.effective ≤ date) (htype : payload.type ≠ .uncancel)
    (i : SubscriptionId) :
    (w.adding (Replay.next cx r i date payload)).Rising cx ∧
      ∀ e ∈ (w.adding (Replay.next cx r i date payload)).added,
        e.ordering < cx.firstOrdering + (r.count + 1) := by
  refine ⟨h.adding (Nat.le_add_right _ _) hnumbered hdate htype, ?_⟩
  refine List.forall_mem_append.2 ⟨fun e he => Nat.lt_succ_of_lt (hnumbered e he), ?_⟩
  rw [List.forall_mem_singleton]
  exact Nat.lt_succ_self _

theorem Carried.prospects_of_cancel {payload : Payload} {prospects : List Prospect}
    (h : w.Carried cx p payload prospects) (htype : p.type = .cancel) : prospects = [] := by
  cases h with
  | creation type => simp [htype, EventType.isRecreation] at type
  | change type => simp [htype] at type
  | cancel => rfl

end Rework

/-! ## The sweep and the replay of one subscription -/

/-- A sweep and the replay of a subscription by itself, when that has said `said` and has the
proposals `ps` before it: the sweep has these in line too, and has entered some of the phases that
are still pending there. All of those lie before the next proposal. -/
structure InStep (cx : ReplayContext) (r : Replay) (ops : List Operation) (w : Rework)
    (said : List TimedPayload) (entered : List Prospect) (ps : List Proposal) : Prop where
  alone : w.replayAlone cx = w.replayFrom cx said (entered ++ r.due w.id) ps
  line : ops.filter (·.subscription == w.id) = ps.map (⟨w.id, ·⟩)
  added : w.added.map (·.timed) = said ++ entered.map (·.timed)
  before : ∀ q ∈ entered, ∀ p ∈ ps, q.date < p.effective
  ahead : ∀ e ∈ w.events, (∀ q ∈ r.due w.id, e.effective ≤ q.date) ∧
    ∀ p ∈ ps, e.effective ≤ p.effective
  live : r.due w.id ≠ [] → w.IsLive
  rising : w.Rising cx
  numbered : ∀ e ∈ w.added, e.ordering < cx.firstOrdering + r.count

theorem Operation.mem_of_line {ops : List Operation} {i : SubscriptionId} {ps : List Proposal}
    (hline : ops.filter (·.subscription == i) = ps.map (⟨i, ·⟩)) {p : Proposal} (hp : p ∈ ps) :
    ⟨i, p⟩ ∈ ops := by
  have hmem := List.mem_map_of_mem (f := fun p => (⟨i, p⟩ : Operation)) hp
  rw [← hline] at hmem
  exact (List.mem_filter.1 hmem).1

namespace InStep

variable {cx : ReplayContext} {r r' : Replay} {ops ops' : List Operation} {op : Operation}
  {w : Rework} {said : List TimedPayload} {entered : List Prospect} {ps : List Proposal}
  {p : Proposal}

theorem elsewhere (h : InStep cx r ops w said entered ps)
    (hline : ops'.filter (·.subscription == w.id) = ops.filter (·.subscription == w.id))
    (hdue : r'.due w.id = r.due w.id) (hcount : r.count ≤ r'.count) :
    InStep cx r' ops' w said entered ps where
  alone := hdue ▸ h.alone
  line := hline.trans h.line
  added := h.added
  before := h.before
  ahead := hdue ▸ h.ahead
  live := hdue ▸ h.live
  rising := h.rising
  numbered e he := Nat.lt_of_lt_of_le (h.numbered e he) (Nat.add_le_add_left hcount _)

/-- The sweep may enter the next phase at once. By itself the subscription comes to it before the
next proposal, as it is pending there. -/
theorem enter {q : Prospect} {qs : List Prospect} (h : InStep cx r ops w said entered ps)
    (hfront : r.prospects = q :: qs) (hid : q.subscription = w.id)
    (hdates : r.prospects.Pairwise (fun a b => a.date ≤ b.date))
    (hnext : ∀ p ∈ ps, q.date < p.effective) :
    InStep cx (Replay.record cx { r with prospects := qs } q.subscription q.date (.phase q.phase))
      ops (w.adding (Replay.next cx r q.subscription q.date (.phase q.phase))) said
      (entered ++ [q]) ps := by
  have hdue : r.due w.id = q :: Replay.due { r with prospects := qs } w.id := by
    rw [Replay.due_of_front hfront, if_pos hid]
  have hdate : ∀ e ∈ w.events, e.effective ≤ q.date := fun e he =>
    (h.ahead e he).1 q (hdue ▸ List.mem_cons_self ..)
  have hbehind : ∀ q' ∈ Replay.due { r with prospects := qs } w.id, q.date ≤ q'.date := by
    intro q' hq'
    exact (List.pairwise_cons.1 (hfront ▸ hdates)).1 q' (List.mem_filter.1 hq').1
  have htype : (Payload.phase q.phase).type ≠ .uncancel := nofun
  obtain ⟨hrising, hnumbered⟩ := h.rising.next h.numbered hdate htype q.subscription
  have hlive := h.live (hdue ▸ List.cons_ne_nil _ _)
  exact {
    alone := by
      rw [Rework.replayAlone_congr (Rework.adding_bare w _),
        Rework.replayFrom_congr (Rework.adding_bare w _), h.alone, hdue, List.append_cons]
      rfl
    line := h.line
    added := by
      rw [Rework.adding_added, List.map_append, h.added, List.map_append, List.append_assoc]
      rfl
    before := List.forall_mem_append.2 ⟨h.before, by simpa using hnext⟩
    ahead := by
      rw [Rework.adding_events]
      refine List.forall_mem_append.2 ⟨fun e he => ⟨fun q' hq' => ?_, (h.ahead e he).2⟩, ?_⟩
      · exact Int.le_trans (hdate e he) (hbehind q' hq')
      · rw [List.forall_mem_singleton]
        exact ⟨hbehind, fun p hp => Int.le_of_lt (hnext p hp)⟩
    live := fun _ => Rework.isLive_adding nofun (.inr hlive)
    rising := hrising
    numbered := hnumbered }

/-- A proposal for the subscription is the next one by itself too. -/
theorem exists_rest (h : InStep cx r (op :: ops) w said entered ps)
    (hid : op.subscription = w.id) : ∃ rest, ps = op.proposal :: rest ∧
      ops.filter (·.subscription == w.id) = rest.map (⟨w.id, ·⟩) := by
  have hline := h.line
  rw [List.filter_cons_of_pos (by simpa using hid)] at hline
  obtain ⟨p, rest, rfl, rfl, hrest⟩ := List.map_eq_cons_iff.1 hline.symm
  exact ⟨rest, rfl, hrest.symm⟩

/-- By itself the subscription comes to the next proposal with the new events that it has in the
sweep. -/
theorem alone_eq (h : InStep cx r ops w said entered (p :: ps))
    (hdue : ∀ q ∈ r.due w.id, p.effective ≤ q.date) :
    w.replayAlone cx = w.carryOut cx p >>= fun (payload, prospects) =>
      w.replayFrom cx (w.added.map (·.timed) ++ [⟨p.effective, payload⟩]) prospects ps := by
  have hpending : (entered ++ r.due w.id).filter (·.date < p.effective) = entered := by
    rw [List.filter_append, List.filter_eq_self.2 fun q hq => ?_,
      List.filter_eq_nil_iff.2 fun q hq => ?_, List.append_nil]
    · simpa [Instant.lt_def, Instant.le_def] using hdue q hq
    · exact decide_eq_true (h.before q hq p (List.mem_cons_self ..))
  have hdate : ∀ e ∈ w.events, e.effective ≤ p.effective := fun e he =>
    (h.ahead e he).2 p (List.mem_cons_self ..)
  rw [h.alone, Rework.replayFrom, hpending, ← h.added, h.rising.carryOut_saying hdate]

/-- The proposal does the same either way, and of what was pending nothing is left. -/
theorem perform {rest : List Proposal} {payload : Payload} {prospects : List Prospect}
    (h : InStep cx r (op :: ops) w said entered (op.proposal :: rest))
    (hline : ops.filter (·.subscription == w.id) = rest.map (⟨w.id, ·⟩))
    (hdates : ∀ p ∈ rest, op.proposal.effective ≤ p.effective)
    (hdue : ∀ q ∈ r.due w.id, op.proposal.effective ≤ q.date)
    (hw : r.work? op.subscription = some w)
    (hout : w.carryOut cx op.proposal = .ok (payload, prospects)) :
    InStep cx ((r.record cx op.subscription op.proposal.effective payload).replaceProspects
        op.subscription prospects) ops
      (w.adding (Replay.next cx r op.subscription op.proposal.effective payload))
      (w.added.map (·.timed) ++ [⟨op.proposal.effective, payload⟩]) [] rest := by
  have hcarried := Rework.carried_of_eq_ok hout
  have hid : w.id = op.subscription := (Sweep.work?_mem hw).2
  have hdate : ∀ e ∈ w.events, e.effective ≤ op.proposal.effective := fun e he =>
    (h.ahead e he).2 _ (List.mem_cons_self ..)
  have hprospects : Replay.due ((r.record cx op.subscription op.proposal.effective payload)
      |>.replaceProspects op.subscription prospects) w.id = prospects := by
    rw [hid]
    exact Replay.due_carried_self hw hcarried
  obtain ⟨hrising, hnumbered⟩ := h.rising.next h.numbered hdate hcarried.type_ne op.subscription
  exact {
    alone := by
      rw [Rework.replayAlone_congr (Rework.adding_bare w _),
        Rework.replayFrom_congr (Rework.adding_bare w _), h.alone_eq hdue, hout]
      exact congrArg (w.replayFrom cx _ · rest) hprospects.symm
    line := hline
    added := by
      rw [Rework.adding_added, List.map_append]
      exact (List.append_nil _).symm
    before := by simp
    ahead := by
      rw [Rework.adding_events, Rework.adding_id, hprospects]
      have hbehind : ∀ q ∈ prospects, op.proposal.effective ≤ q.date := fun q hq =>
        Int.le_of_lt (hcarried.prospect q hq).2
      refine List.forall_mem_append.2 ⟨fun e he => ⟨fun q hq => ?_, fun p hp => ?_⟩, ?_⟩
      · exact Int.le_trans (hdate e he) (hbehind q hq)
      · exact Int.le_trans (hdate e he) (hdates p hp)
      · rw [List.forall_mem_singleton]
        exact ⟨hbehind, hdates⟩
    live := by
      rw [Rework.adding_id, hprospects]
      intro hne
      have htype : op.proposal.type ≠ .cancel := fun htype =>
        hne (hcarried.prospects_of_cancel htype)
      obtain ⟨hgoes, hlive⟩ := hcarried.isLive htype fun t ht =>
        Rework.cursor_of_liveAt? h.rising.calm hdate ht
      exact Rework.isLive_adding hgoes hlive
    rising := hrising
    numbered := hnumbered }

end InStep

/-- The sweep is in step with every subscription. -/
structure Abreast (cx : ReplayContext) (r : Replay) (ops : List Operation) : Prop where
  ids : (r.works.map (·.id)).Nodup
  prospects : r.prospects.Pairwise (fun a b => a.date ≤ b.date)
  proposals : ops.Pairwise (fun a b => a.proposal.effective ≤ b.proposal.effective)
  inStep : ∀ w ∈ r.works, ∃ said entered ps, InStep cx r ops w said entered ps

namespace Abreast

variable {cx : ReplayContext} {r r' : Replay} {ops : List Operation}

theorem enter {q : Prospect} {qs : List Prospect} (h : Abreast cx r ops)
    (hfront : r.prospects = q :: qs) (hnext : ∀ op ∈ ops.head?, q.date < op.proposal.effective) :
    Abreast cx (Replay.enter cx { r with prospects := qs } q) ops := by
  have hdates := (List.pairwise_cons.1 (hfront ▸ h.prospects)).2
  have hlater : ∀ op ∈ ops, q.date < op.proposal.effective :=
    forall_of_head? h.proposals (fun _ _ hle hlt => Int.lt_of_lt_of_le hlt hle) hnext
  have hids : ((Replay.enter cx { r with prospects := qs } q).works.map (·.id)).Nodup := by
    rw [Replay.map_ids_of_bare (Replay.enter_bare q)]
    exact h.ids
  have hdue {w : Rework} (hne : w.id ≠ q.subscription) :
      Replay.due { r with prospects := qs } w.id = r.due w.id := by
    rw [Replay.due_of_front hfront, if_neg (Ne.symm hne)]
  revert hids
  unfold Replay.enter
  split
  · intro hids
    refine ⟨hids, hdates, h.proposals, fun w' hw' => ?_⟩
    rcases Replay.mem_record_works.1 hw' with ⟨hw, hne⟩ | ⟨w, hw, hid, rfl⟩
    · obtain ⟨said, entered, ps, hin⟩ := h.inStep w' hw
      exact ⟨said, entered, ps, hin.elsewhere rfl (hdue hne) (Nat.le_succ _)⟩
    · obtain ⟨said, entered, ps, hin⟩ := h.inStep w hw
      exact ⟨said, entered ++ [q], ps, hin.enter hfront hid.symm h.prospects fun p hp =>
        hlater _ (Operation.mem_of_line hin.line hp)⟩
  next hnone =>
    intro hids
    refine ⟨hids, hdates, h.proposals, fun w hw => ?_⟩
    obtain ⟨said, entered, ps, hin⟩ := h.inStep w hw
    by_cases hid : w.id = q.subscription
    · -- A phase is in prospect only if the subscription is on a plan.
      have hmem : q ∈ r.due w.id := by simp [Replay.due, hfront, hid]
      have hfound := (hin.live (List.ne_nil_of_mem hmem)).liveAt?_isSome hin.rising.calm
        fun e he => (hin.ahead e he).1 q hmem
      have hwork : Replay.work? { r with prospects := qs } q.subscription = some w :=
        hid ▸ find?_of_nodup h.ids hw
      rw [hwork, Option.bind_some] at hnone
      simp [hnone] at hfound
    · exact ⟨said, entered, ps, hin.elsewhere rfl (hdue hid) (Nat.le_refl _)⟩

theorem perform {op : Operation} {w : Rework} {payload : Payload} {prospects : List Prospect}
    (h : Abreast cx r (op :: ops))
    (hnext : ∀ q ∈ r.prospects.head?, op.proposal.effective ≤ q.date)
    (hw : r.work? op.subscription = some w)
    (hout : w.carryOut cx op.proposal = .ok (payload, prospects)) :
    Abreast cx ((r.record cx op.subscription op.proposal.effective payload).replaceProspects
      op.subscription prospects) ops := by
  obtain ⟨hlater, hproposals⟩ := List.pairwise_cons.1 h.proposals
  refine ⟨?_, Prospect.pairwise_sortBy_le _, hproposals, fun w' hw' => ?_⟩
  · show ((r.record cx op.subscription op.proposal.effective payload).works.map (·.id)).Nodup
    rw [Replay.map_ids_of_bare (Replay.record_bare ..)]
    exact h.ids
  · rcases Replay.mem_record_works.1 hw' with ⟨hw', hne⟩ | ⟨w₁, hw₁, hid, rfl⟩
    · obtain ⟨said, entered, ps, hin⟩ := h.inStep w' hw'
      refine ⟨said, entered, ps, hin.elsewhere ?_ ?_ (Nat.le_succ _)⟩
      · rw [List.filter_cons_of_neg (by simpa using Ne.symm hne)]
      · exact Replay.due_carried_other hw (Rework.carried_of_eq_ok hout) h.prospects hne
    · obtain rfl : w₁ = w :=
        Option.some.inj ((find?_of_nodup h.ids hw₁).symm.trans (hid ▸ hw))
      obtain ⟨said, entered, ps, hin⟩ := h.inStep w₁ hw₁
      obtain ⟨rest, rfl, hline⟩ := hin.exists_rest hid.symm
      have hdates : ∀ p ∈ rest, op.proposal.effective ≤ p.effective := fun p hp =>
        hlater _ (Operation.mem_of_line hline hp)
      exact ⟨_, [], rest, hin.perform hline hdates (Replay.le_due h.prospects hnext) hw hout⟩

theorem skip {op : Operation} (h : Abreast cx r (op :: ops))
    (hw : r.work? op.subscription = none) : Abreast cx r ops := by
  refine ⟨h.ids, h.prospects, (List.pairwise_cons.1 h.proposals).2, fun w hmem => ?_⟩
  obtain ⟨said, entered, ps, hin⟩ := h.inStep w hmem
  refine ⟨said, entered, ps, hin.elsewhere ?_ rfl (Nat.le_refl _)⟩
  have hne := List.find?_eq_none.1 hw w hmem
  rw [List.filter_cons_of_neg]
  simpa using Ne.symm (by simpa using hne)

/-- In the end the new events of every subscription say what they say if it is replayed by
itself. -/
theorem performAll (h : Abreast cx r ops) (hr : r.performAll cx ops = .ok r') :
    ∀ w ∈ r'.works, w.replayAlone cx = .ok (w.added.map (·.timed)) := by
  obtain ⟨hend, hnone⟩ := Replay.performAll_induct (P := Abreast cx)
    (fun _ _ _ _ hfront hnext h => h.enter hfront hnext)
    (fun _ _ _ _ _ _ hnext hw hout h => h.perform hnext hw hout)
    (fun _ _ _ hw h => h.skip hw) hr h
  intro w hw
  obtain ⟨said, entered, ps, hin⟩ := hend.inStep w hw
  obtain rfl : ps = [] := List.map_eq_nil_iff.1 hin.line.symm
  rw [hin.alone, hin.added, Replay.due, hnone, List.filter_nil, List.append_nil]
  rfl

/-- The sweep comes to its end if every subscription can be replayed by itself. -/
theorem succeeds (h : Abreast cx r ops)
    (halone : ∀ w ∈ r.works, ∃ said, w.replayAlone cx = .ok said) :
    ∃ r', r.performAll cx ops = .ok r' := by
  refine Replay.performAll_succeeds
    (P := fun r' ops => Abreast cx r' ops ∧ r'.works.map Rework.bare = r.works.map Rework.bare)
    (fun _ _ _ _ hfront hnext ⟨h, hbare⟩ =>
      ⟨h.enter hfront hnext, (Replay.enter_bare _).trans hbare⟩)
    (fun _ _ _ _ _ _ hnext hw hout ⟨h, hbare⟩ =>
      ⟨h.perform hnext hw hout, (Replay.record_bare _ _ _).trans hbare⟩)
    (fun _ _ _ hw ⟨h, hbare⟩ => ⟨h.skip hw, hbare⟩) (fun r' op ops w hnext hw ⟨h', hbare⟩ => ?_)
    ⟨h, rfl⟩
  obtain ⟨hmem, hid⟩ := Sweep.work?_mem hw
  obtain ⟨w₀, hw₀, hsame⟩ : ∃ w₀ ∈ r.works, w₀.bare = w.bare :=
    List.mem_map.1 (hbare ▸ List.mem_map_of_mem hmem)
  obtain ⟨said, entered, ps, hin⟩ := h'.inStep w hmem
  obtain ⟨rest, rfl, -⟩ := hin.exists_rest hid.symm
  obtain ⟨result, hresult⟩ := halone w₀ hw₀
  rw [Rework.replayAlone_congr hsame, hin.alone_eq (Replay.le_due h'.prospects hnext)] at hresult
  obtain ⟨out, hout, -⟩ := bind_eq_ok.1 hresult
  exact ⟨out, hout⟩

end Abreast

/-! ## Repairs -/

/-- The repair passes all checks against the bundle on the bench, with its edits prepared there. -/
structure Repair.Passes (repair : Repair) (b : Workbench) (view : String) : Prop where
  upToDate : repair.viewId = view
  hasHistory : ∃ s ∈ b.subscriptions, (finalStanding s.events s.category).isSome = true
  known : repair.stranger? b.subscriptions = none
  prepared : repair.prepareAll b.subscriptions = .ok b.works
  faultless : b.fault? = none

/-- What a repair comes to, once its edits have been worked out. -/
def Workbench.planOf (b : Workbench) (repair : Repair) (view : String) (context : CallContext)
    (works : List Rework) : RepairPlan where
  view :=
    { viewId := view, bundle := b.bundle.id,
      subscriptions := b.subscriptions.map (timelineOf works) }
  commit :=
    { bundle := b.bundle.id, expectedView := repair.viewId,
      bundleStart := if b.isBaseRecreated then some b.bundleStart else none,
      subscriptions := (works.filter (·.isTouched)).map b.repaired,
      createdBy := context.createdBy }

namespace Repair.Passes

variable {repair : Repair} {b : Workbench} {view : String} (h : repair.Passes b view)

include h

theorem work_prepared {w : Rework} (hw : w ∈ b.works) : w.Prepared ∧ w.added = [] := by
  obtain ⟨x, -, hx⟩ := prepareAll_mem h.prepared hw
  obtain ⟨hprep, -, -, -, hadded⟩ := Rework.prepare_eq_ok.1 hx
  exact ⟨hprep, hadded⟩

theorem bare_eq {w : Rework} (hw : w ∈ b.works) : w.bare = w := by
  rw [Rework.bare, ← (h.work_prepared hw).2]

theorem pairwise_kept {w : Rework} (hw : w ∈ b.works) :
    w.kept.Pairwise (fun a b => a.effective ≤ b.effective) :=
  (pairwise_date_effectiveEvents _).sublist (h.work_prepared hw).1.kept_sublist

theorem planRepair_eq (catalog : Catalog) (context : CallContext) (now : Instant)
    (ids : Nat → EventId) :
    planRepair catalog b.bundle view b.subscriptions repair context now ids =
      (Replay.run (b.replayContext catalog context now ids) b.works).map
        (b.planOf repair view context) := by
  have hhistory : (b.subscriptions.all fun s => (finalStanding s.events s.category).isNone) =
      false := by
    obtain ⟨s, hs, hsome⟩ := h.hasHistory
    rw [List.all_eq_false]
    exact ⟨s, hs, by simpa using Option.isSome_iff_ne_none.1 hsome⟩
  unfold planRepair
  rw [if_neg (not_not.2 h.upToDate), hhistory, h.known, h.prepared]
  have hfault : Workbench.fault? ⟨b.bundle, b.subscriptions, b.works⟩ = none := h.faultless
  simp only [Bool.false_eq_true, if_false, liftM, monadLift, MonadLift.monadLift, Except.mapError,
    bind, Except.bind, hfault]
  show (Replay.run (b.replayContext catalog context now ids) b.works).bind
    (fun works => .ok (b.planOf repair view context works)) = _
  cases Replay.run (b.replayContext catalog context now ids) b.works <;> rfl

section Start

variable {cx : ReplayContext} (hord : cx.firstOrdering = b.nextOrdering)

include hord

theorem rising {w : Rework} (hw : w ∈ b.works) : w.Rising cx := by
  obtain ⟨hprep, hadded⟩ := h.work_prepared hw
  have hsub := Loaded.mem_of_work (prepareAll_subscriptions h.prepared) hw
  exact {
    kept := (Calm.ofEffective _).sublist hprep.kept_sublist
    behind := fun e he => hord ▸ Workbench.ordering_lt_next hsub (Loaded.mem_of_kept hprep he)
    fresh := by simp [hadded]
    rises := by simp [hadded]
    dates := by
      rw [Rework.events, hadded, List.append_nil]
      exact h.pairwise_kept hw
    uncancels := by simp [hadded] }

variable {owed : List (List Prospect)}
  (howed : List.Forall₂ (fun w ps => w.owedPhases cx = .ok ps) b.works owed)

include howed

theorem inStep {w : Rework} (hw : w ∈ b.works) :
    InStep cx ⟨b.works, sortBy Prospect.le owed.flatten, 0⟩ (Replay.agenda b.works) w [] []
      w.proposals := by
  have hids := prepareAll_nodup h.prepared
  obtain ⟨hprep, hadded⟩ := h.work_prepared hw
  have hown := Replay.filter_owed howed hids hw
  have hdue := Replay.due_start hids howed hw hown
  have hfault := Workbench.datesFault?_of_fault? h.faultless
  have hrising := h.rising hord hw
  exact {
    alone := by
      rw [Rework.replayAlone, hown, hdue]
      rfl
    line := Replay.filter_agenda hids hw hprep.byDate
    added := by
      rw [hadded]
      rfl
    before := by simp
    ahead := by
      intro e he
      rw [Rework.events, hadded, List.append_nil] at he
      rw [hdue]
      constructor
      · intro q hq
        have hbehind := (Rework.owedPhases_behind hown q hq).2
        exact Rework.kept_le (h.pairwise_kept hw)
          (fun last hlast => Int.le_of_lt (hbehind last hlast)) e he
      · intro p hp
        exact Rework.kept_le (h.pairwise_kept hw)
          (fun last => Workbench.lastKept_le hfault hw hp) e he
    live := fun hne => h.bare_eq hw ▸ Rework.isLive_of_owed hrising.kept hown (hdue ▸ hne)
    rising := hrising
    numbered := by simp [hadded] }

theorem abreast :
    Abreast cx ⟨b.works, sortBy Prospect.le owed.flatten, 0⟩ (Replay.agenda b.works) where
  ids := prepareAll_nodup h.prepared
  prospects := Prospect.pairwise_sortBy_le _
  proposals := Operation.pairwise_sortBy_le _
  inStep w hw := ⟨[], [], w.proposals, h.inStep hord howed hw⟩

end Start

/-- What comes out of the sweep says what each subscription says by itself. -/
theorem alone_of_run {cx : ReplayContext} (hord : cx.firstOrdering = b.nextOrdering)
    {works : List Rework} (hrun : Replay.run cx b.works = .ok works) :
    List.Forall₂ (fun w w' => w'.bare = w ∧ w.replayAlone cx = .ok (w'.added.map (·.timed)))
      b.works works := by
  have hbare : works.map Rework.bare = b.works :=
    (Replay.run_bare hrun).trans <|
      (List.map_congr_left fun _ hw => h.bare_eq hw).trans (List.map_id _)
  obtain ⟨owed, howed, r, hr, rfl⟩ := Replay.run_eq_ok.1 hrun
  have hend := (h.abreast hord howed).performAll hr
  rw [← hbare, List.forall₂_map_left_iff, List.forall₂_same]
  intro w hw
  have halone : w.bare.replayAlone cx = w.replayAlone cx := Rework.replayAlone_congr rfl
  exact ⟨rfl, halone.trans (hend w hw)⟩

/-- If each subscription can be replayed by itself, the sweep has a start and an end. -/
theorem run_of_alone {cx : ReplayContext} (hord : cx.firstOrdering = b.nextOrdering)
    (halone : ∀ w ∈ b.works, ∃ said, w.replayAlone cx = .ok said) :
    ∃ works, Replay.run cx b.works = .ok works := by
  have howed : List.Forall₂ (fun w ps => w.owedPhases cx = .ok ps) b.works
      (b.works.map fun w => (w.owedPhases cx).toOption.getD []) := by
    rw [List.forall₂_map_right_iff, List.forall₂_same]
    intro w hw
    obtain ⟨said, hsaid⟩ := halone w hw
    obtain ⟨owed, hown, -⟩ := bind_eq_ok.1 hsaid
    rw [hown]
    rfl
  obtain ⟨r, hr⟩ := (h.abreast hord howed).succeeds halone
  exact ⟨r.works, Replay.run_eq_ok.2 ⟨_, howed, r, hr, rfl⟩⟩

end Repair.Passes

section Outcomes

variable {catalog : Catalog} {bundle : Bundle} {view : String} {subs : List Subscription}
  {repair : Repair} {context : CallContext} {now : Instant}

theorem planRepair_of_not_passes
    (h : ∀ works, ¬ repair.Passes ⟨bundle, subs, works⟩ view) :
    ∃ err, ∀ n, planRepair catalog bundle view subs repair context now n = .error err := by
  unfold planRepair
  by_cases hview : repair.viewId = view
  swap
  · exact ⟨.repair (.viewChanged bundle.id repair.viewId view), fun n => by rw [if_pos hview]; rfl⟩
  cases hhistory : subs.all fun s => (finalStanding s.events s.category).isNone with
  | true =>
    exact ⟨.repair (.noActiveSubscriptions bundle.id), fun n => by
      rw [if_neg (not_not.2 hview)]; rfl⟩
  | false =>
    cases hstranger : repair.stranger? subs with
    | some i =>
      exact ⟨.repair (.unknownSubscription bundle.id i), fun n => by
        rw [if_neg (not_not.2 hview)]; rfl⟩
    | none =>
      cases hprep : repair.prepareAll subs with
      | error err =>
        exact ⟨.repair err, fun n => by
          rw [if_neg (not_not.2 hview)]; rfl⟩
      | ok works =>
        cases hfault : Workbench.fault? ⟨bundle, subs, works⟩ with
        | some fault =>
          refine ⟨.repair fault, fun n => ?_⟩
          rw [if_neg (not_not.2 hview)]
          simp only [liftM, monadLift, MonadLift.monadLift, Except.mapError, bind, Except.bind,
            hfault]
          rfl
        | none =>
          obtain ⟨s, hs, hsome⟩ := List.all_eq_false.1 hhistory
          exact (h works ⟨hview, ⟨s, hs, by simpa [Option.isSome_iff_ne_none] using hsome⟩,
            hstranger, hprep, hfault⟩).elim

theorem exists_passes_of_planRepair {ids : Nat → EventId} {plan : RepairPlan}
    (h : planRepair catalog bundle view subs repair context now ids = .ok plan) :
    ∃ works, repair.Passes ⟨bundle, subs, works⟩ view := by
  by_contra hnone
  obtain ⟨err, herr⟩ := planRepair_of_not_passes (not_exists.1 hnone)
  rw [herr] at h
  cases h

end Outcomes

/-- **Subscriptions are replayed apart.** Behind its checks the planning of a repair depends on one
sweep through the proposals of all edited subscriptions. The sweep succeeds if and only if each of
them can be replayed by itself, and then their new events say the same. -/
theorem replayed_apart {repair : Repair} {b : Workbench} {view : String}
    (h : repair.Passes b view) (catalog : Catalog) (context : CallContext) (now : Instant)
    (ids : Nat → EventId) :
    let cx := b.replayContext catalog context now ids
    planRepair catalog b.bundle view b.subscriptions repair context now ids =
        (Replay.run cx b.works).map (b.planOf repair view context) ∧
      ((∃ works, Replay.run cx b.works = .ok works) ↔
        ∀ w ∈ b.works, ∃ said, w.replayAlone cx = .ok said) ∧
      ∀ works, Replay.run cx b.works = .ok works →
        List.Forall₂ (fun w w' => w'.bare = w ∧
          w.replayAlone cx = .ok (w'.added.map (·.timed))) b.works works := by
  intro cx
  refine ⟨h.planRepair_eq catalog context now ids, ⟨?_, h.run_of_alone rfl⟩,
    fun works => h.alone_of_run rfl⟩
  rintro ⟨works, hrun⟩ w hw
  obtain ⟨w', -, -, halone⟩ := exists_right_of_forall₂ (h.alone_of_run rfl hrun) hw
  exact ⟨_, halone⟩

namespace Sample

/-- A repair of a bundle that cuts the later phase of both subscriptions off. The base plan is
changed for day 10 and cancelled for day 40; the add-on has nothing proposed. -/
def recut : Repair := ⟨"4-432000000",
  [⟨⟨1⟩, [⟨2⟩], [⟨.cancel, day 40, none, none⟩,
      ⟨.change, day 10, some ⟨"shotgun", .monthly, "DEFAULT"⟩, none⟩]⟩,
    ⟨⟨2⟩, [⟨4⟩], []⟩]⟩

/-- The bundle with both subscriptions on the bench. -/
def bench : Workbench :=
  let subs := (after discounted).subscriptionsOf ⟨1⟩
  ⟨⟨⟨1⟩, "key", ⟨1⟩, day 0, day 5⟩, subs, (recut.prepareAll subs).toOption.getD []⟩

/-- The identifiers that the repair is given. -/
def issued (n : Nat) : EventId := ⟨100 + n⟩

def benchContext : ReplayContext := bench.replayContext engine.catalog caller (day 6) issued

theorem recut_passes : recut.Passes bench "4-432000000" where
  upToDate := rfl
  hasHistory := by decide +kernel
  known := by decide +kernel
  prepared := eq_ok_getD (by decide +kernel) []
  faultless := by decide +kernel

end Sample

/-- The sweep enters the phases of both subscriptions on its way to the cancellation. -/
theorem replayed_apart_sample : ∃ works,
    Replay.run Sample.benchContext Sample.bench.works = .ok works ∧
      List.Forall₂ (fun w w' => w.replayAlone Sample.benchContext =
        .ok (w'.added.map (·.timed))) Sample.bench.works works ∧
      works.map (·.added.map (·.timed)) =
        [[⟨Sample.day 10, .change ⟨"shotgun-monthly", "shotgun-monthly-trial", "DEFAULT"⟩⟩,
            ⟨Sample.day 30, .phase "shotgun-monthly-evergreen"⟩, ⟨Sample.day 40, .cancel⟩],
          [⟨Sample.day 31, .phase "laser-scope-monthly-evergreen"⟩]] := by
  have hsome : ∀ w ∈ Sample.bench.works,
      (w.replayAlone Sample.benchContext).toOption.isSome = true := by decide +kernel
  have hread : (Replay.run Sample.benchContext Sample.bench.works).toOption.map
      (fun works => works.map (·.added.map (·.timed))) =
      some [[⟨Sample.day 10, .change ⟨"shotgun-monthly", "shotgun-monthly-trial", "DEFAULT"⟩⟩,
          ⟨Sample.day 30, .phase "shotgun-monthly-evergreen"⟩, ⟨Sample.day 40, .cancel⟩],
        [⟨Sample.day 31, .phase "laser-scope-monthly-evergreen"⟩]] := by decide +kernel
  obtain ⟨-, hruns, hevents⟩ := replayed_apart Sample.recut_passes Sample.engine.catalog
    Sample.caller (Sample.day 6) Sample.issued
  have halone : ∀ w ∈ Sample.bench.works, ∃ said, w.replayAlone Sample.benchContext = .ok said := by
    intro w hw
    have hok := hsome w hw
    cases hsaid : w.replayAlone Sample.benchContext with
    | error err => simp [hsaid, Except.toOption] at hok
    | ok said => exact ⟨said, rfl⟩
  obtain ⟨works, hrun⟩ : ∃ works,
      Replay.run Sample.benchContext Sample.bench.works = .ok works := hruns.2 halone
  refine ⟨works, hrun, (hevents works hrun).imp fun _ _ h => h.2, ?_⟩
  rw [hrun] at hread
  exact Option.some.inj hread

end Tenure
