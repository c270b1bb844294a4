import Tenure.Proofs.Cuts
import Tenure.Proofs.Sweep

/-!
# A replay drains one queue

A replay goes by two agendas, one of proposals and one of phases in prospect (`Replay.run`). They
stand for one queue in which both wait. Its entries are in no order, and the next to go is one of
the least key (`Entry.key`): by date, imports first, proposals before phases, then by subscription,
and then by place. The place of a phase is its number among all that were ever put in line, the
place of a proposal is the one that it is listed at.

A queue is drained entry by entry, and phases come into it as proposals are carried out (`Drains`).
Which entry of several goes first if they have the same key is left open, so nothing depends on how
a queue is kept.

**Theorem (`run_drains`).** What a replay works out is what comes of draining the queue.

At each point the proposals left and the phases in prospect are the entries left, and each of the
two agendas is in the order of the keys (`Mirrors`). So the entry that goes next is at the front of
one of them, and as keys have proposals before phases, it is the one that a replay turns to.
-/

namespace Tenure

/-- What an entry waits for. -/
inductive Pending
  | proposal (p : Proposal)
  | phase (name : String)

/-- An entry of the queue. -/
structure Entry where
  date : Instant
  subscription : SubscriptionId
  pending : Pending
  place : Nat

namespace Entry

def isPhase (x : Entry) : Bool :=
  match x.pending with
  | .phase _ => true
  | .proposal _ => false

def isImport (x : Entry) : Bool :=
  match x.pending with
  | .phase _ => false
  | .proposal p => p.type.isMigration

/-- Entries go by their keys, which are compared from the front. -/
def key (x : Entry) : List Int :=
  [x.date.tick, if x.isImport then 0 else 1, if x.isPhase then 1 else 0, x.subscription.number,
    x.place]

/-- The entry may go before the other. -/
def le (x y : Entry) : Bool := !decide (y.key < x.key)

def ofOperation (op : Operation × Nat) : Entry :=
  ⟨op.1.proposal.effective, op.1.subscription, .proposal op.1.proposal, op.2⟩

def ofProspect (p : Prospect × Nat) : Entry :=
  ⟨p.1.date, p.1.subscription, .phase p.1.phase, p.2⟩

end Entry

/-- Where the subscription has proposals for one date, they are placed in their order. -/
def Rework.PlacedBy (w : Rework) (place : Nat → Nat) : Prop :=
  w.proposals.zipIdx.Pairwise fun a b => a.1.effective = b.1.effective → place a.2 < place b.2

/-! ## Queues -/

/-- A replay on its way, with all that is in line. -/
structure Queue where
  works : List Rework
  /-- The number of events that have arisen. -/
  count : Nat
  entries : List Entry
  /-- The number of phases that have been put in line. -/
  phases : Nat

namespace Queue

def record (cx : ReplayContext) (q : Queue) (i : SubscriptionId) (date : Instant)
    (payload : Payload) : Queue :=
  let r := Replay.record cx ⟨q.works, [], q.count⟩ i date payload
  { q with works := r.works, count := r.count }

def dropPhases (q : Queue) (i : SubscriptionId) : Queue :=
  { q with entries := q.entries.filter fun x => !(x.subscription == i && x.isPhase) }

/-- Put phases in line. -/
def schedule (q : Queue) (ps : List Prospect) : Queue :=
  { q with
    entries := q.entries ++ (ps.zipIdx q.phases).map Entry.ofProspect
    phases := q.phases + ps.length }

/-- Do what an entry that was taken out waits for. -/
def apply (cx : ReplayContext) (q : Queue) (x : Entry) : Except Error Queue :=
  match q.works.find? (·.id == x.subscription), x.pending with
  | none, _ => .ok q
  | some w, .phase name =>
    match w.liveAt? x.date with
    | some _ => .ok (q.record cx x.subscription x.date (.phase name))
    | none => .ok q
  | some w, .proposal p =>
    match w.carryOut cx p with
    | .error err => .error err
    | .ok (payload, prospects) =>
      .ok (((q.record cx x.subscription x.date payload).dropPhases x.subscription).schedule
        prospects)

/-- The queue at the start, with the proposals of all edited subscriptions, and the phases that they
owe in their order. -/
def ofWorks (place : SubscriptionId → Nat → Nat) (works : List Rework)
    (owed : List (List Prospect)) : Queue :=
  let operations := works.flatMap fun w =>
    w.proposals.zipIdx.map fun (p, n) => ((⟨w.id, p⟩ : Operation), place w.id n)
  schedule ⟨works, 0, operations.map Entry.ofOperation, 0⟩ owed.flatten

/-- `x` is taken out of the queue and leaves `rest`. -/
def Pops (q : Queue) (x : Entry) (rest : List Entry) : Prop :=
  q.entries.Perm (x :: rest) ∧ ∀ y ∈ rest, x.le y = true

/-- The queue is drained and comes to `out`. -/
inductive Drains (cx : ReplayContext) : Queue → Except Error Queue → Prop
  | empty {q : Queue} (h : q.entries = []) : Drains cx q (.ok q)
  | fails {q : Queue} {x : Entry} {rest : List Entry} {err : Error} (hpop : q.Pops x rest)
      (h : apply cx { q with entries := rest } x = .error err) : Drains cx q (.error err)
  | goesOn {q q' : Queue} {x : Entry} {rest : List Entry} {out : Except Error Queue}
      (hpop : q.Pops x rest) (h : apply cx { q with entries := rest } x = .ok q')
      (hout : Drains cx q' out) : Drains cx q out

end Queue

/-! ## Keys -/

namespace Entry

theorem le_iff {x y : Entry} : x.le y = true ↔ ¬ y.key < x.key := by simp [le]

/-- Entries of a kind go by date, subscription and place. -/
theorem key_lt_iff {x y : Entry} (hx : x.isImport = false) (hy : y.isImport = false)
    (hphase : x.isPhase = y.isPhase) : x.key < y.key ↔ x.date < y.date ∨ x.date = y.date ∧
      (x.subscription.number < y.subscription.number ∨
        x.subscription.number = y.subscription.number ∧ x.place < y.place) := by
  simp [key, hx, hy, hphase, List.cons_lt_cons_iff, Instant.lt_def, Instant.ext_iff,
    Int.natCast_inj]

/-- At one date the proposal goes first. -/
theorem ofOperation_lt_ofProspect {a : Operation × Nat} {b : Prospect × Nat}
    (ha : a.1.proposal.type.isMigration = false) :
    (ofOperation a).key < (ofProspect b).key ↔ a.1.proposal.effective ≤ b.1.date := by
  simp only [key, ofOperation, ofProspect, isImport, isPhase, ha, List.cons_lt_cons_iff,
    Instant.le_def]
  simp
  omega

theorem ofProspect_lt_ofOperation {a : Prospect × Nat} {b : Operation × Nat}
    (hb : b.1.proposal.type.isMigration = false) :
    (ofProspect a).key < (ofOperation b).key ↔ a.1.date < b.1.proposal.effective := by
  simp [key, ofOperation, ofProspect, isImport, isPhase, hb, List.cons_lt_cons_iff,
    Instant.lt_def]

end Entry

/-! ## The agendas mirror the queue -/

namespace Queue

variable {cx : ReplayContext} {q q' : Queue} {r : Replay} {x : Entry} {rest : List Entry}
  {o : Operation × Nat} {os : List (Operation × Nat)} {p : Prospect × Nat}
  {ps : List (Prospect × Nat)}

/-- A replay has in its agendas, by key, what is in line. -/
structure Mirrors (q : Queue) (r : Replay) (os : List (Operation × Nat))
    (ps : List (Prospect × Nat)) : Prop where
  works : q.works = r.works
  count : q.count = r.count
  prospects : r.prospects = ps.map (·.1)
  entries : q.entries.Perm (os.map Entry.ofOperation ++ ps.map Entry.ofProspect)
  operationsByKey : (os.map Entry.ofOperation).Pairwise (·.key < ·.key)
  prospectsByKey : (ps.map Entry.ofProspect).Pairwise (·.key < ·.key)
  noImports : ∀ o ∈ os, o.1.proposal.type.isMigration = false
  placed : ∀ p ∈ ps, p.2 < q.phases

/-- What goes next of a list that is in order is at its front. -/
theorem Pops.eq_cons (h : q.Pops x rest) {xs ys : List Entry} (hq : q.entries.Perm (xs ++ ys))
    (hxs : xs.Pairwise (·.key < ·.key)) (hx : x ∈ xs) :
    ∃ xs', xs = x :: xs' ∧ rest.Perm (xs' ++ ys) := by
  obtain ⟨hperm, hfirst⟩ := h
  cases xs with
  | nil => cases hx
  | cons y xs =>
    have hmem : y ∈ x :: rest := (hq.symm.trans hperm).mem_iff.1 (by simp)
    obtain rfl : y = x := by
      rcases List.mem_cons.1 hmem with hsame | hmem
      · exact hsame
      · rcases List.mem_cons.1 hx with hsame | hx
        · exact hsame.symm
        · exact absurd ((List.pairwise_cons.1 hxs).1 x hx) (Entry.le_iff.1 (hfirst y hmem))
    exact ⟨xs, rfl, ((hperm.symm.trans hq).cons_inv)⟩

namespace Mirrors

theorem pops (h : Mirrors q r os ps) (hpop : q.Pops x rest) :
    (∃ o os', os = o :: os' ∧ x = Entry.ofOperation o ∧
      (∀ p ∈ ps, o.1.proposal.effective ≤ p.1.date) ∧
        rest.Perm (os'.map Entry.ofOperation ++ ps.map Entry.ofProspect)) ∨
    ∃ p ps', ps = p :: ps' ∧ x = Entry.ofProspect p ∧
      (∀ o ∈ os, p.1.date < o.1.proposal.effective) ∧
        rest.Perm (os.map Entry.ofOperation ++ ps'.map Entry.ofProspect) := by
  have hfirst : ∀ y ∈ os.map Entry.ofOperation ++ ps.map Entry.ofProspect, ¬ y.key < x.key := by
    intro y hy
    rcases List.mem_cons.1 (hpop.1.mem_iff.1 (h.entries.mem_iff.2 hy)) with rfl | hy
    · exact List.lt_irrefl _
    · exact Entry.le_iff.1 (hpop.2 y hy)
  have hx : x ∈ q.entries := hpop.1.mem_iff.2 List.mem_cons_self
  rcases List.mem_append.1 (h.entries.mem_iff.1 hx) with hx | hx
  · obtain ⟨xs, hxs, hrest⟩ := hpop.eq_cons h.entries h.operationsByKey hx
    cases os with
    | nil => cases hxs
    | cons o os =>
      obtain ⟨rfl, rfl⟩ := List.cons.inj hxs
      refine .inl ⟨o, os, rfl, rfl, fun p hp => ?_, hrest⟩
      have hle := hfirst _ (List.mem_append_right _ (List.mem_map_of_mem hp))
      rwa [Entry.ofProspect_lt_ofOperation (h.noImports o List.mem_cons_self),
        Instant.lt_def, Int.not_lt] at hle
  · obtain ⟨xs, hxs, hrest⟩ :=
      hpop.eq_cons (h.entries.trans List.perm_append_comm) h.prospectsByKey hx
    cases ps with
    | nil => cases hxs
    | cons p ps =>
      obtain ⟨rfl, rfl⟩ := List.cons.inj hxs
      refine .inr ⟨p, ps, rfl, rfl, fun o ho => ?_, hrest.trans List.perm_append_comm⟩
      have hle := hfirst _ (List.mem_append_left _ (List.mem_map_of_mem ho))
      rwa [Entry.ofOperation_lt_ofProspect (h.noImports o ho), Instant.le_def,
        Int.not_le] at hle

end Mirrors

end Queue

/-! ## Moves of a replay -/

namespace Replay

variable {cx : ReplayContext} {r : Replay} {p : Prospect} {ps : List Prospect}
  {ops : List Operation}

theorem advanceTo_of_le {date : Instant} (h : ∀ p ∈ r.prospects, date ≤ p.date) :
    r.advanceTo cx date = r := by
  have hnone : ∀ p ∈ r.prospects, ¬ decide (p.date < date) = true := fun p hp => by
    simpa [Instant.lt_def, Instant.le_def] using h p hp
  rw [advanceTo, List.takeWhile_eq_nil_iff.2 fun hne => hnone _ (List.getElem_mem hne),
    List.dropWhile_eq_self_iff.2 fun hne => hnone _ (List.getElem_mem hne)]
  rfl

theorem advanceTo_enter {date : Instant} (hp : r.prospects = p :: ps) (hlt : p.date < date) :
    (enter cx { r with prospects := ps } p).advanceTo cx date = r.advanceTo cx date := by
  have hpass : decide (p.date < date) = true := decide_eq_true hlt
  simp only [advanceTo, hp, enter_prospects, List.takeWhile_cons, List.dropWhile_cons, hpass,
    if_true, List.foldl_cons]

/-- A replay may enter the phase in front first if all proposals are for later. -/
theorem performAll_enter (hp : r.prospects = p :: ps)
    (hops : ∀ op ∈ ops, p.date < op.proposal.effective) :
    (enter cx { r with prospects := ps } p).performAll cx ops = r.performAll cx ops := by
  cases ops with
  | nil =>
    simp only [performAll, finish, hp, enter_prospects, List.foldl_cons]
  | cons op ops =>
    rw [performAll, performAll, perform, perform, advanceTo_enter hp (hops op List.mem_cons_self)]

end Replay

/-! ## The queue moves along -/

/-- By date, and then by subscription. -/
def Entry.slotLe (x y : Entry) : Bool :=
  x.date < y.date || (x.date == y.date && x.subscription.number ≤ y.subscription.number)

/-- Stable sorting puts entries of a kind in the order of their keys, if those of a subscription for
one date are placed in their order. -/
theorem Entry.pairwise_sortBy_slotLe {xs : List Entry} (himports : ∀ x ∈ xs, x.isImport = false)
    (hkind : ∀ x ∈ xs, ∀ y ∈ xs, x.isPhase = y.isPhase)
    (hplaced : xs.Pairwise fun x y => x.subscription = y.subscription → x.date = y.date →
      x.place < y.place) : (sortBy slotLe xs).Pairwise (·.key < ·.key) := by
  have hle {x y : Entry} : slotLe x y = true ↔ x.date < y.date ∨
      x.date = y.date ∧ x.subscription.number ≤ y.subscription.number := by simp [slotLe]
  have hsorted : (sortBy slotLe xs).Pairwise fun x y => slotLe x y = true := by
    refine pairwise_sortBy (fun x y => ?_) (fun x y z => ?_) xs <;>
      · simp only [hle, Instant.lt_def, Instant.ext_iff]
        omega
  refine (hsorted.and (pairwise_sortBy_ties hplaced)).imp_of_mem fun {x y} hx hy ⟨hxy, hties⟩ => ?_
  rw [mem_sortBy] at hx hy
  rw [key_lt_iff (himports x hx) (himports y hy) (hkind x hx y hy)]
  rcases hle.1 hxy with hlt | ⟨hdate, hnumber⟩
  · exact .inl hlt
  · refine .inr ⟨hdate, (Nat.lt_or_eq_of_le hnumber).imp_right fun hsame => ⟨hsame, ?_⟩⟩
    exact hties (hle.2 (.inr ⟨hdate.symm, Nat.le_of_eq hsame.symm⟩))
      (congrArg SubscriptionId.mk hsame) hdate

theorem Entry.pairwise_operations {os : List (Operation × Nat)}
    (himports : ∀ o ∈ os, o.1.proposal.type.isMigration = false)
    (hplaced : os.Pairwise fun a b => a.1.subscription = b.1.subscription →
      a.1.proposal.effective = b.1.proposal.effective → a.2 < b.2) :
    ((sortBy (fun a b => Operation.le a.1 b.1) os).map ofOperation).Pairwise (·.key < ·.key) :=
  (map_sortBy ofOperation slotLe os).symm ▸ pairwise_sortBy_slotLe (List.forall_mem_map.2 himports)
    (List.forall_mem_map.2 fun _ _ => List.forall_mem_map.2 fun _ _ => rfl)
    (List.pairwise_map.2 hplaced)

theorem Entry.pairwise_prospects {ps : List (Prospect × Nat)}
    (hplaced : ps.Pairwise fun a b => a.1.subscription = b.1.subscription →
      a.1.date = b.1.date → a.2 < b.2) :
    ((sortBy (fun a b => Prospect.le a.1 b.1) ps).map ofProspect).Pairwise (·.key < ·.key) :=
  (map_sortBy ofProspect slotLe ps).symm ▸ pairwise_sortBy_slotLe
    (List.forall_mem_map.2 fun _ _ => rfl)
    (List.forall_mem_map.2 fun _ _ => List.forall_mem_map.2 fun _ _ => rfl)
    (List.pairwise_map.2 hplaced)

theorem pairwise_zipIdx {α : Type} (xs : List α) (n : Nat) :
    (xs.zipIdx n).Pairwise (·.2 < ·.2) := by
  rw [← List.pairwise_map (R := (· < ·)), List.zipIdx_map_snd]
  exact List.pairwise_lt_range' 1

namespace Queue

variable {cx : ReplayContext} {q q' : Queue} {r : Replay} {x : Entry} {rest : List Entry}
  {o : Operation × Nat} {os : List (Operation × Nat)} {p : Prospect × Nat}
  {ps : List (Prospect × Nat)}

namespace Mirrors

theorem enter (h : Mirrors q r os (p :: ps))
    (hrest : rest.Perm (os.map Entry.ofOperation ++ ps.map Entry.ofProspect)) :
    ∃ q', apply cx { q with entries := rest } (Entry.ofProspect p) = .ok q' ∧
      Mirrors q' (Replay.enter cx { r with prospects := ps.map (·.1) } p.1) os ps := by
  obtain ⟨works, _, count⟩ := r
  obtain ⟨works', count', entries, phases⟩ := q
  obtain ⟨rfl, rfl, -, -, hos, hps, himports, hplaced⟩ := h
  replace hps := (List.pairwise_cons.1 hps).2
  replace hplaced := (List.forall_mem_cons.1 hplaced).2
  simp only [apply, Entry.ofProspect, Replay.enter, Replay.work?]
  cases works'.find? (·.id == p.1.subscription) with
  | none => exact ⟨_, rfl, rfl, rfl, rfl, hrest, hos, hps, himports, hplaced⟩
  | some w =>
    simp only [Option.bind_some]
    cases w.liveAt? p.1.date with
    | none => exact ⟨_, rfl, rfl, rfl, rfl, hrest, hos, hps, himports, hplaced⟩
    | some st => exact ⟨_, rfl, rfl, rfl, rfl, hrest, hos, hps, himports, hplaced⟩

theorem perform (cx : ReplayContext) (h : Mirrors q r (o :: os) ps)
    (hrest : rest.Perm (os.map Entry.ofOperation ++ ps.map Entry.ofProspect)) (payload : Payload)
    {prospects : List Prospect} (hown : ∀ p ∈ prospects, p.subscription = o.1.subscription) :
    ∃ ps', Mirrors
      (((record cx { q with entries := rest } o.1.subscription o.1.proposal.effective
        payload).dropPhases o.1.subscription).schedule prospects)
      ((r.record cx o.1.subscription o.1.proposal.effective payload).replaceProspects
        o.1.subscription prospects) os ps' := by
  obtain ⟨works, prospects', count⟩ := r
  obtain ⟨works', count', entries, phases⟩ := q
  obtain ⟨rfl, rfl, hprospects, -, hos, hps, himports, hplaced⟩ := h
  obtain rfl : prospects' = ps.map (·.1) := hprospects
  let i := o.1.subscription
  let left := ps.filter (·.1.subscription != i)
  have hfilter : (rest.filter fun x => !(x.subscription == i && x.isPhase)).Perm
      (os.map Entry.ofOperation ++ left.map Entry.ofProspect) := by
    have hperm := hrest.filter fun x => !(x.subscription == i && x.isPhase)
    have hall : os.filter ((fun x => !(x.subscription == i && x.isPhase)) ∘ Entry.ofOperation) =
        os := List.filter_eq_self.2 fun o _ => by simp [Entry.ofOperation, Entry.isPhase]
    have hleft : ps.filter ((fun x => !(x.subscription == i && x.isPhase)) ∘ Entry.ofProspect) =
        left := List.filter_congr fun p _ => by simp [Entry.ofProspect, Entry.isPhase, bne]
    rwa [List.filter_append, List.filter_map, List.filter_map, hall, hleft] at hperm
  -- What is left is of other subscriptions, so it does not tie with what is new.
  have hnew : (left ++ prospects.zipIdx phases).Pairwise fun a b =>
      a.1.subscription = b.1.subscription → a.1.date = b.1.date → a.2 < b.2 := by
    refine List.pairwise_append.2 ⟨?_, (pairwise_zipIdx _ _).imp fun hlt _ _ => hlt, ?_⟩
    · refine ((List.pairwise_map.1 hps).filter _).imp fun {a b} hlt hsub hdate => ?_
      have hkey := (Entry.key_lt_iff (x := Entry.ofProspect a) (y := Entry.ofProspect b) rfl rfl
        rfl).1 hlt
      simpa [Entry.ofProspect, hsub, hdate, Instant.lt_def] using hkey
    · intro a ha b hb hsub
      have hmem : b.1 ∈ prospects := List.zipIdx_map_fst phases prospects ▸ List.mem_map_of_mem hb
      exact absurd (hsub.trans (hown b.1 hmem)) (by simpa using (List.mem_filter.1 ha).2)
  refine ⟨sortBy (fun a b => Prospect.le a.1 b.1) (left ++ prospects.zipIdx phases), rfl, rfl, ?_,
    ?_, (List.pairwise_cons.1 hos).2, Entry.pairwise_prospects hnew,
    (List.forall_mem_cons.1 himports).2, fun p hp => ?_⟩
  · show sortBy Prospect.le _ = _
    rw [map_sortBy, List.map_append, List.zipIdx_map_fst, Replay.record_prospects, List.filter_map]
    rfl
  · refine (hfilter.append_right _).trans ?_
    rw [List.append_assoc, ← List.map_append]
    exact ((sortBy_perm _ _).map _).symm.append_left _
  · rcases List.mem_append.1 (mem_sortBy.1 hp) with hp | hp
    · exact Nat.lt_add_right _ (hplaced p (List.mem_filter.1 hp).1)
    · exact Nat.lt_of_lt_of_eq (List.snd_lt_of_mem_zipIdx hp) (Nat.add_comm ..)

/-- What the entry that goes next comes to is what the replay comes to next. -/
theorem turns (h : Mirrors q r os ps) (hpop : q.Pops x rest) :
    (∃ err, apply cx { q with entries := rest } x = .error err ∧
      r.performAll cx (os.map (·.1)) = .error err) ∨
    ∃ q' r' os' ps', apply cx { q with entries := rest } x = .ok q' ∧ Mirrors q' r' os' ps' ∧
      r.performAll cx (os.map (·.1)) = r'.performAll cx (os'.map (·.1)) := by
  rcases h.pops hpop with ⟨o, os, rfl, rfl, hle, hrest⟩ | ⟨p, ps, rfl, rfl, hlt, hrest⟩
  · have hadvance : r.advanceTo cx o.1.proposal.effective = r := by
      refine Replay.advanceTo_of_le ?_
      rw [h.prospects]
      exact List.forall_mem_map.2 hle
    have hwork : r.work? o.1.subscription = q.works.find? (·.id == o.1.subscription) := by
      rw [Replay.work?, h.works]
    simp only [apply, Entry.ofOperation, List.map_cons, Replay.performAll, Replay.perform, hadvance,
      hwork]
    cases hw : q.works.find? (·.id == o.1.subscription) with
    | none =>
      exact .inr ⟨_, r, os, ps, rfl, ⟨h.works, h.count, h.prospects, hrest,
        (List.pairwise_cons.1 h.operationsByKey).2, h.prospectsByKey,
        (List.forall_mem_cons.1 h.noImports).2, h.placed⟩, rfl⟩
    | some w =>
      cases hout : w.carryOut cx o.1.proposal with
      | error err => exact .inl ⟨err, by simp only [hout], by simp only [hout]⟩
      | ok out =>
        obtain ⟨payload, prospects⟩ := out
        have hid : w.id = o.1.subscription := by simpa using List.find?_some hw
        obtain ⟨ps', hmirrors⟩ := h.perform cx hrest payload fun p hp =>
          ((Rework.carried_of_eq_ok hout).prospect p hp).1.trans hid
        exact .inr ⟨_, _, os, ps', by simp only [hout], hmirrors, by simp only [hout]⟩
  · obtain ⟨q', happly, hmirrors⟩ := h.enter hrest
    refine .inr ⟨q', _, os, ps, happly, hmirrors, ?_⟩
    exact (Replay.performAll_enter h.prospects (List.forall_mem_map.2 hlt)).symm

theorem drained {out : Except Error Queue} (hout : Drains cx q out) (h : Mirrors q r os ps) :
    (r.performAll cx (os.map (·.1))).map (·.works) = out.map (·.works) := by
  induction hout generalizing r os ps with
  | @empty q hnone =>
    obtain ⟨hos, hps⟩ := List.append_eq_nil_iff.1 (hnone ▸ h.entries).nil_eq.symm
    obtain rfl := List.map_eq_nil_iff.1 hos
    obtain rfl := List.map_eq_nil_iff.1 hps
    have hfinish : r.finish cx = r := by
      rw [Replay.finish, h.prospects]
      exact congrArg (Replay.mk _ · _) h.prospects.symm
    rw [List.map_nil, Replay.performAll, hfinish]
    exact congrArg Except.ok h.works.symm
  | fails hpop happly =>
    rcases h.turns hpop with ⟨err, happly', hrun⟩ | ⟨q', -, -, -, happly', -⟩
    · cases happly.symm.trans happly'
      rw [hrun]
      rfl
    · cases happly.symm.trans happly'
  | goesOn hpop happly _ ih =>
    rcases h.turns hpop with ⟨err, happly', -⟩ | ⟨q', r', os', ps', happly', hmirrors, hrun⟩
    · cases happly.symm.trans happly'
    · cases happly.symm.trans happly'
      rw [hrun]
      exact ih hmirrors

end Mirrors

/-! ## Every queue is drained -/

/-- As long as something is in line, something goes next. -/
theorem exists_pops (h : q.entries ≠ []) : ∃ x rest, q.Pops x rest := by
  have hordered : (sortBy Entry.le q.entries).Pairwise fun x y => x.le y = true := by
    refine pairwise_sortBy (fun x y => ?_) (fun x y z => ?_) q.entries
    · simpa only [Entry.le_iff, List.not_lt] using List.le_total x.key y.key
    · simpa only [Entry.le_iff, List.not_lt] using List.le_trans
  have hperm := sortBy_perm Entry.le q.entries
  cases hsort : sortBy Entry.le q.entries with
  | nil => exact absurd (hsort ▸ hperm).nil_eq.symm h
  | cons x rest =>
    rw [hsort] at hordered hperm
    exact ⟨x, rest, hperm.symm, (List.pairwise_cons.1 hordered).1⟩

/-- The number of proposals in line. -/
def proposals (q : Queue) : Nat := q.entries.countP (!·.isPhase)

/-- Each entry that is taken out leaves fewer proposals in line, or as many and fewer entries. -/
theorem apply_decreases (hpop : q.Pops x rest)
    (h : apply cx { q with entries := rest } x = .ok q') :
    q'.proposals < q.proposals ∨
      q'.proposals ≤ q.proposals ∧ q'.entries.length < q.entries.length := by
  have hproposals : q.proposals = rest.countP (!·.isPhase) + if x.isPhase then 0 else 1 := by
    rw [proposals, hpop.1.countP_eq, List.countP_cons]
    cases x.isPhase <;> rfl
  have hsame (hq : q'.entries = rest) : q'.proposals ≤ q.proposals ∧
      q'.entries.length < q.entries.length := by
    rw [hproposals, proposals, hq, hpop.1.length_eq]
    exact ⟨Nat.le_add_right .., Nat.lt_succ_self _⟩
  unfold apply at h
  split at h
  · cases h
    exact .inr (hsame rfl)
  · split at h <;> cases h <;> exact .inr (hsame rfl)
  next w p _ hpending =>
    split at h
    · cases h
    · cases h
      have hphase : x.isPhase = false := by rw [Entry.isPhase, hpending]
      have hkept : (rest.filter fun y => !(y.subscription == x.subscription && y.isPhase)).countP
          (!·.isPhase) ≤ rest.countP (!·.isPhase) := List.filter_sublist.countP_le
      have hscheduled (ps : List (Prospect × Nat)) :
          (ps.map Entry.ofProspect).countP (!·.isPhase) = 0 := by
        refine List.countP_eq_zero.2 fun y hy => ?_
        obtain ⟨p, -, rfl⟩ := List.mem_map.1 hy
        simp [Entry.ofProspect, Entry.isPhase]
      refine .inl ?_
      rw [hproposals, hphase, proposals, schedule, List.countP_append, hscheduled]
      exact Nat.lt_succ_of_le hkept

theorem exists_drains (cx : ReplayContext) (q : Queue) : ∃ out, Drains cx q out := by
  by_cases hnone : q.entries = []
  · exact ⟨_, .empty hnone⟩
  · obtain ⟨x, rest, hpop⟩ := exists_pops hnone
    cases happly : apply cx { q with entries := rest } x with
    | error err => exact ⟨_, .fails hpop happly⟩
    | ok q' =>
      obtain ⟨out, hout⟩ := exists_drains cx q'
      exact ⟨out, .goesOn hpop happly hout⟩
termination_by (q.proposals, q.entries.length)
decreasing_by
  rcases apply_decreases hpop happly with hlt | ⟨hle, hlt⟩
  · exact .left _ _ hlt
  · rcases Nat.lt_or_eq_of_le hle with hless | hsame
    · exact .left _ _ hless
    · rw [hsame]
      exact .right _ hlt

/-! ## From the start to the end -/

/-- At the start the agendas mirror the queue. -/
theorem exists_mirrors_ofWorks {place : SubscriptionId → Nat → Nat} {works : List Rework}
    (owed : List (List Prospect)) (hids : (works.map (·.id)).Nodup)
    (himports : ∀ w ∈ works, ∀ p ∈ w.proposals, p.type.isMigration = false)
    (hplaced : ∀ w ∈ works, w.PlacedBy (place w.id)) :
    ∃ os ps, Mirrors (ofWorks place works owed) ⟨works, sortBy Prospect.le owed.flatten, 0⟩ os ps ∧
      os.map (·.1) = Replay.agenda works := by
  let entries (w : Rework) : List (Operation × Nat) :=
    w.proposals.zipIdx.map fun (p, n) => (⟨w.id, p⟩, place w.id n)
  have hentries (w : Rework) : (entries w).map (·.1) = w.proposals.map (⟨w.id, ·⟩) := by
    have hpairs := congrArg (List.map (Operation.mk w.id)) (List.zipIdx_map_fst 0 w.proposals)
    rw [List.map_map] at hpairs
    exact List.map_map.trans hpairs
  have hmem {w : Rework} {o : Operation × Nat} (ho : o ∈ entries w) :
      o.1.subscription = w.id ∧ o.1.proposal ∈ w.proposals := by
    obtain ⟨p, hp, hsame⟩ := List.mem_map.1 (hentries w ▸ List.mem_map_of_mem ho)
    exact hsame ▸ ⟨rfl, hp⟩
  have hnone : ∀ o ∈ works.flatMap entries, o.1.proposal.type.isMigration = false := by
    intro o ho
    obtain ⟨w, hw, ho⟩ := List.mem_flatMap.1 ho
    exact himports w hw _ (hmem ho).2
  refine ⟨sortBy (fun a b => Operation.le a.1 b.1) (works.flatMap entries),
    sortBy (fun a b => Prospect.le a.1 b.1) owed.flatten.zipIdx, ⟨rfl, rfl, ?_, ?_,
      Entry.pairwise_operations hnone (List.pairwise_flatMap.2 ⟨fun w hw => ?_, ?_⟩),
      Entry.pairwise_prospects ((pairwise_zipIdx _ _).imp fun hlt _ _ => hlt),
      fun o ho => hnone o (mem_sortBy.1 ho), fun p hp => ?_⟩, ?_⟩
  · rw [map_sortBy, List.zipIdx_map_fst]
  · exact .append ((sortBy_perm _ _).map _).symm ((sortBy_perm _ _).map _).symm
  · exact List.pairwise_map.2 ((hplaced w hw).imp fun hlt _ hdate => hlt hdate)
  · refine (List.pairwise_map.1 hids).imp fun hne a ha b hb hsame => absurd ?_ hne
    exact (hmem ha).1.symm.trans (hsame.trans (hmem hb).1)
  · exact Nat.lt_of_lt_of_eq (List.snd_lt_of_mem_zipIdx (mem_sortBy.1 hp)) (Nat.add_comm ..)
  · rw [map_sortBy, List.map_flatMap, funext hentries]
    rfl

end Queue

/-- **A replay drains one queue.** Where edited subscriptions owe phases, the queue of their
proposals and these phases can be drained, and whichever way it is, the replay comes to the same. -/
theorem Replay.run_drains {cx : ReplayContext} {repair : Repair} {subs : List Subscription}
    {works : List Rework} (hprep : repair.prepareAll subs = .ok works)
    {place : SubscriptionId → Nat → Nat} (hplaced : ∀ w ∈ works, w.PlacedBy (place w.id))
    {owed : List (List Prospect)} (howed : works.mapM (·.owedPhases cx) = .ok owed) :
    (∃ out, Queue.Drains cx (.ofWorks place works owed) out) ∧
      ∀ out, Queue.Drains cx (.ofWorks place works owed) out →
        run cx works = out.map (·.works) := by
  refine ⟨Queue.exists_drains cx _, fun out hout => ?_⟩
  have himports : ∀ w ∈ works, ∀ p ∈ w.proposals, p.type.isMigration = false := by
    intro w hw p hp
    obtain ⟨x, -, hx⟩ := Repair.prepareAll_mem hprep hw
    have hshape := Proposal.firstDisallowed?_eq_none.1 (Rework.prepare_eq_ok.1 hx).1.shape
    rcases hshape.allowed p hp with h | h | h | h <;> rw [h] <;> rfl
  obtain ⟨os, ps, hmirrors, hagenda⟩ :=
    Queue.exists_mirrors_ofWorks owed (Repair.prepareAll_nodup hprep) himports hplaced
  rw [← hmirrors.drained hout, hagenda, run, howed]
  rfl

end Tenure
