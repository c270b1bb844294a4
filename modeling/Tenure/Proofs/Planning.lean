import Tenure.Proofs.Sweep

/-!
# Planned repairs

What is known of a repair whose planning succeeds. Every edited subscription is cut into a part
kept and a part cut off, proposals stand by date and build anew exactly what keeps nothing
(`Rework.Prepared`). The replay starts with its invariant in place (`Sweep.start`) and changes
nothing but the new events (`run_bare`), so the invariant holds of the works that are written.
-/

namespace Tenure

/-! ## Cutting and checking -/

namespace Rework

/-- What preparing an edit gives. The new events have no part in it. -/
structure Prepared (w : Rework) : Prop where
  cut : w.subscription.effectiveEvents = w.kept ++ w.cut
  cutDeleted : ∀ e ∈ w.cut, e.id ∈ w.deleted
  keptNotDeleted : ∀ e ∈ w.kept, e.id ∉ w.deleted
  deleted : ∀ i ∈ w.deleted, ∃ e ∈ w.subscription.effectiveEvents, e.id = i
  byDate : w.proposals.Pairwise (fun a b => a.effective ≤ b.effective)
  shape : Proposal.firstDisallowed? w.proposals = none
  recreated : w.isRecreated = true ↔ w.kept = []

theorem Prepared.kept_sublist {w : Rework} (h : w.Prepared) :
    w.kept.Sublist w.subscription.effectiveEvents := by
  rw [h.cut]
  exact List.sublist_append_left _ _

theorem Prepared.of_bare {w w' : Rework} (h : w.Prepared) (hbare : w'.bare = w.bare) :
    w'.Prepared := by
  rw [bare_eq_iff] at hbare
  obtain ⟨h1, h2, h3, h4, h5, h6, h7⟩ := h
  rw [hbare] at h1 h2 h3 h4 h5 h6 h7
  exact ⟨h1, h2, h3, h4, h5, h6, h7⟩

theorem cutTail_eq_ok {i : SubscriptionId} {visible kept cut : List Event}
    {deleted : List EventId} :
    cutTail i visible deleted = .ok (kept, cut) ↔
      visible = kept ++ cut ∧ (∀ e ∈ cut, e.id ∈ deleted) ∧ (∀ e ∈ kept, e.id ∉ deleted) ∧
        ∀ i ∈ deleted, ∃ e ∈ visible, e.id = i := by
  unfold cutTail
  constructor
  · intro h
    split at h
    · cases h
    next hexist =>
      simp only at h
      split at h
      · cases h
      next hlate =>
        cases h
        refine ⟨List.takeWhile_append_dropWhile.symm, fun e he => ?_, fun e he => ?_,
          fun i hi => ?_⟩
        · simpa using List.find?_eq_none.1 hlate e he
        · simpa using List.mem_takeWhile_imp he
        · simpa using List.find?_eq_none.1 hexist i hi
  · rintro ⟨rfl, hcut, hkept, hexist⟩
    have hnone : deleted.find? (fun id => !(kept ++ cut).any (·.id == id)) = none :=
      List.find?_eq_none.2 fun i hi => by
        simpa only [Bool.not_eq_true', Bool.not_eq_false, List.any_eq_true, beq_iff_eq] using
          hexist i hi
    have hkeeps : ∀ e ∈ kept, (!deleted.contains e.id) = true := by simpa using hkept
    have hfront : cut.takeWhile (fun e => !deleted.contains e.id) = [] ∧
        cut.dropWhile (fun e => !deleted.contains e.id) = cut := by
      cases cut with
      | nil => exact ⟨rfl, rfl⟩
      | cons e es => simp [hcut e]
    have hlate : cut.find? (fun e => !deleted.contains e.id) = none :=
      List.find?_eq_none.2 fun e he => by simpa using hcut e he
    simp only [hnone, List.takeWhile_append_of_pos hkeeps, List.dropWhile_append_of_pos hkeeps,
      hfront.1, hfront.2, hlate, List.append_nil]

theorem pairwise_sortBy_dateLe (ps : List Proposal) :
    (sortBy Proposal.dateLe ps).Pairwise (fun a b => a.effective ≤ b.effective) := by
  refine (pairwise_sortBy (fun a b => ?_) (fun a b c hab hbc => ?_) ps).imp fun {a b} h => ?_
  · simp only [Proposal.dateLe, decide_eq_true_eq, Instant.le_def]
    omega
  · simp only [Proposal.dateLe, decide_eq_true_eq, Instant.le_def] at *
    omega
  · simpa [Proposal.dateLe] using h

theorem lastKept?_eq_none {w : Rework} : w.lastKept? = none ↔ w.kept = [] := by
  simp [lastKept?]

section Preparing

variable {sub : Subscription} {deleted : List EventId} {proposals : List Proposal} {w : Rework}

theorem prepare_passes : prepare sub deleted proposals = .ok w ↔
    cutTail sub.id sub.effectiveEvents deleted = .ok (w.kept, w.cut) ∧
      Proposal.firstDisallowed? w.proposals = none ∧ (w.isRecreated = true ↔ w.kept = []) ∧
      w.subscription = sub ∧ w.deleted = deleted ∧
        w.proposals = sortBy Proposal.dateLe proposals ∧ w.added = [] := by
  simp only [prepare, bind_eq_ok]
  constructor
  · rintro ⟨⟨kept, cut⟩, hcut, h⟩
    split at h
    · simp [bind_eq_ok, throw_ne_ok] at h
    next hshape =>
      simp only at h
      split at h
      · simp [throw_ne_ok] at h
      · simp [throw_ne_ok] at h
      next hlast hempty =>
        rw [pure_eq_ok] at h
        subst h
        refine ⟨hcut, Option.eq_none_iff_forall_ne_some.2 hshape, ⟨fun hre => ?_, fun hnil => ?_⟩,
          rfl, rfl, rfl, rfl⟩
        · rw [← lastKept?_eq_none, Option.eq_none_iff_forall_ne_some]
          exact fun last hsome => hlast last hsome hre
        · by_contra hre
          exact hempty (lastKept?_eq_none.2 hnil) (by simpa using hre)
  · rintro ⟨hcut, hshape, hrecreated, rfl, rfl, hproposals, hadded⟩
    obtain ⟨sub, kept, cut, deleted, ps, added⟩ := w
    obtain rfl : added = [] := hadded
    obtain rfl : ps = sortBy Proposal.dateLe proposals := hproposals
    refine ⟨(kept, cut), hcut, ?_⟩
    rw [← lastKept?_eq_none] at hrecreated
    simp only [hshape]
    split
    next hlast hre =>
      rw [hrecreated.1 hre] at hlast
      cases hlast
    next hlast hre =>
      rw [hrecreated.2 hlast] at hre
      cases hre
    · rfl

theorem prepare_eq_ok : prepare sub deleted proposals = .ok w ↔
    w.Prepared ∧ w.subscription = sub ∧ w.deleted = deleted ∧
      w.proposals = sortBy Proposal.dateLe proposals ∧ w.added = [] := by
  rw [prepare_passes]
  constructor
  · rintro ⟨hcut, hshape, hrecreated, rfl, rfl, hproposals, hadded⟩
    obtain ⟨hvisible, hcutDeleted, hkept, hdeleted⟩ := cutTail_eq_ok.1 hcut
    exact ⟨⟨hvisible, hcutDeleted, hkept, hdeleted, hproposals ▸ pairwise_sortBy_dateLe _, hshape,
      hrecreated⟩, rfl, rfl, hproposals, hadded⟩
  · rintro ⟨hw, rfl, rfl, hproposals, hadded⟩
    exact ⟨cutTail_eq_ok.2 ⟨hw.cut, hw.cutDeleted, hw.keptNotDeleted, hw.deleted⟩, hw.shape,
      hw.recreated, rfl, rfl, hproposals, hadded⟩

end Preparing

theorem le_lastKept {w : Rework}
    (hkept : w.kept.Pairwise (fun a b => a.effective ≤ b.effective)) {last : Instant}
    (hlast : w.lastKept? = some last) : ∀ e ∈ w.kept, e.effective ≤ last := by
  obtain ⟨f, hf, rfl⟩ := Option.map_eq_some_iff.1 hlast
  exact le_getLast? hkept hf

theorem kept_le {w : Rework}
    (hkept : w.kept.Pairwise (fun a b => a.effective ≤ b.effective)) {date : Instant}
    (h : ∀ last, w.lastKept? = some last → last ≤ date) : ∀ e ∈ w.kept, e.effective ≤ date := by
  intro e he
  cases hlast : w.lastKept? with
  | none =>
    rw [lastKept?_eq_none.1 hlast] at he
    cases he
  | some last => exact Int.le_trans (le_lastKept hkept hlast e he) (h last hlast)

end Rework

/-! ## Gathering -/

namespace Repair

/-- The edits of one subscription taken together, if there are any. -/
def editOf? (edits : List Edit) (s : Subscription) : Option (Subscription × Edit) :=
  match edits.filter (·.subscription == s.id) with
  | [] => none
  | own => some (s, ⟨s.id, own.flatMap (·.deleted), own.flatMap (·.proposals)⟩)

theorem filter_edits_eq_nil {edits : List Edit} {i : SubscriptionId} :
    edits.filter (·.subscription == i) = [] ↔ ¬ ∃ e ∈ edits, e.subscription = i := by
  simp [List.filter_eq_nil_iff]

theorem filter_edits_without (edits : List Edit) (i j : SubscriptionId) :
    (edits.filter (·.subscription != j)).filter (·.subscription == i) =
      if i = j then [] else edits.filter (·.subscription == i) := by
  rw [List.filter_filter]
  split
  next h =>
    subst h
    simp
  next h =>
    refine List.filter_congr fun e _ => ?_
    by_cases he : e.subscription = i <;> simp [he, h]

theorem gather_eq {subs : List Subscription} (hids : (subs.map (·.id)).Nodup)
    (edits : List Edit) : gather edits subs = subs.filterMap (editOf? edits) := by
  induction subs generalizing edits with
  | nil => rfl
  | cons s ss ih =>
    obtain ⟨hnew, hids⟩ := List.nodup_cons.1 hids
    have hrest : ss.filterMap (editOf? (edits.filter (·.subscription != s.id))) =
        ss.filterMap (editOf? edits) := by
      apply List.filterMap_congr
      intro s' hs'
      have hne : s'.id ≠ s.id := fun h => hnew (List.mem_map.2 ⟨s', hs', h⟩)
      rw [editOf?, editOf?, filter_edits_without, if_neg hne]
    unfold gather
    split
    next hnone =>
      rw [ih hids, List.filterMap_cons_none (by simp [editOf?, hnone])]
    next hsome =>
      have hedit : editOf? edits s = some (s,
          ⟨s.id, (edits.filter (·.subscription == s.id)).flatMap (·.deleted),
            (edits.filter (·.subscription == s.id)).flatMap (·.proposals)⟩) := by
        unfold editOf?
        split
        next hnone => exact (hsome hnone).elim
        next => rfl
      rw [ih hids, hrest, List.filterMap_cons_some hedit]

theorem mem_gather {subs : List Subscription} (hids : (subs.map (·.id)).Nodup)
    {edits : List Edit} {x : Subscription × Edit} (hx : x ∈ gather edits subs) :
    x.1 ∈ subs ∧ (∃ e ∈ edits, e.subscription = x.1.id) ∧
      x.2.deleted = (edits.filter (·.subscription == x.1.id)).flatMap (·.deleted) ∧
      x.2.proposals = (edits.filter (·.subscription == x.1.id)).flatMap (·.proposals) := by
  rw [gather_eq hids, List.mem_filterMap] at hx
  obtain ⟨s, hs, hx⟩ := hx
  unfold editOf? at hx
  split at hx
  · cases hx
  next hsome =>
    cases hx
    refine ⟨hs, ?_, rfl, rfl⟩
    obtain ⟨e, he⟩ := List.exists_mem_of_ne_nil _ hsome
    exact ⟨e, (List.mem_filter.1 he).1, by simpa using (List.mem_filter.1 he).2⟩

theorem exists_gather {subs : List Subscription} (hids : (subs.map (·.id)).Nodup)
    {edits : List Edit} {s : Subscription} (hs : s ∈ subs)
    (he : ∃ e ∈ edits, e.subscription = s.id) : ∃ x ∈ gather edits subs, x.1 = s := by
  obtain ⟨e, he, hid⟩ := he
  rw [gather_eq hids]
  have hmem : e ∈ edits.filter (·.subscription == s.id) := List.mem_filter.2 ⟨he, by simp [hid]⟩
  cases hown : edits.filter (·.subscription == s.id) with
  | nil => simp [hown] at hmem
  | cons e' es =>
    exact ⟨_, List.mem_filterMap.2 ⟨s, hs, by rw [editOf?, hown]⟩, rfl⟩

/-- No edit is of a subscription that the bundle does not have. -/
theorem stranger?_eq_none_iff {repair : Repair} {subs : List Subscription} :
    repair.stranger? subs = none ↔ ∀ e ∈ repair.edits, ∃ s ∈ subs, s.id = e.subscription := by
  simp [stranger?]

theorem gather_fst_sublist (edits : List Edit) (subs : List Subscription) :
    ((gather edits subs).map (·.1)).Sublist subs := by
  induction subs generalizing edits with
  | nil => exact .refl _
  | cons s ss ih =>
    unfold gather
    split
    · exact (ih _).cons _
    · exact (ih _).cons_cons _

theorem exists_edit_of_gather {edits : List Edit} {subs : List Subscription}
    {x : Subscription × Edit} (hx : x ∈ gather edits subs) :
    ∃ e ∈ edits, e.subscription = x.1.id := by
  induction subs generalizing edits with
  | nil => cases hx
  | cons s ss ih =>
    unfold gather at hx
    split at hx
    · exact ih hx
    next hsome =>
      rcases List.mem_cons.1 hx with rfl | hx
      · obtain ⟨e, he⟩ := List.exists_mem_of_ne_nil _ hsome
        exact ⟨e, (List.mem_filter.1 he).1, by simpa using (List.mem_filter.1 he).2⟩
      · obtain ⟨e, he, hid⟩ := ih hx
        exact ⟨e, (List.mem_filter.1 he).1, hid⟩

/-- What is proposed of a subscription that is gathered is proposed by one of the edits. -/
theorem exists_edit_of_proposal {edits : List Edit} {subs : List Subscription}
    {x : Subscription × Edit} (hx : x ∈ gather edits subs) {p : Proposal}
    (hp : p ∈ x.2.proposals) : ∃ e ∈ edits, p ∈ e.proposals := by
  induction subs generalizing edits with
  | nil => cases hx
  | cons s ss ih =>
    unfold gather at hx
    split at hx
    · exact ih hx
    · rcases List.mem_cons.1 hx with rfl | hx
      · obtain ⟨e, he, hp⟩ := List.mem_flatMap.1 hp
        exact ⟨e, (List.mem_filter.1 he).1, hp⟩
      · obtain ⟨e, he, hp⟩ := ih hx
        exact ⟨e, (List.mem_filter.1 he).1, hp⟩

theorem nodup_gather (edits : List Edit) (subs : List Subscription) :
    ((gather edits subs).map (·.1.id)).Nodup := by
  induction subs generalizing edits with
  | nil => exact .nil
  | cons s ss ih =>
    unfold gather
    split
    · exact ih edits
    · rw [List.map_cons]
      refine List.nodup_cons.2 ⟨fun hmem => ?_, ih _⟩
      obtain ⟨x, hx, hid⟩ := List.mem_map.1 hmem
      obtain ⟨e, he, hown⟩ := exists_edit_of_gather hx
      simpa [hown, hid] using (List.mem_filter.1 he).2

/-- The edited subscriptions stand in the order of the bundle, each once. -/
theorem prepareAll_eq_ok {repair : Repair} {subs : List Subscription} {works : List Rework}
    (h : repair.prepareAll subs = .ok works) :
    List.Forall₂ (fun x w => Rework.prepare x.1 x.2.deleted x.2.proposals = .ok w)
      (gather repair.edits subs) works :=
  mapM_eq_ok.1 h

theorem prepareAll_map_subscription {repair : Repair} {subs : List Subscription}
    {works : List Rework} (h : repair.prepareAll subs = .ok works) :
    works.map (·.subscription) = (gather repair.edits subs).map (·.1) := by
  have hall := prepareAll_eq_ok h
  clear h
  generalize gather repair.edits subs = xs at hall
  induction hall with
  | nil => rfl
  | cons hw _ ih => rw [List.map_cons, List.map_cons, ih, (Rework.prepare_eq_ok.1 hw).2.1]

theorem prepareAll_subscriptions {repair : Repair} {subs : List Subscription}
    {works : List Rework} (h : repair.prepareAll subs = .ok works) :
    (works.map (·.subscription)).Sublist subs :=
  prepareAll_map_subscription h ▸ gather_fst_sublist _ _

theorem prepareAll_nodup {repair : Repair} {subs : List Subscription} {works : List Rework}
    (h : repair.prepareAll subs = .ok works) : (works.map (·.id)).Nodup := by
  have hids : works.map (·.id) = (gather repair.edits subs).map (·.1.id) := by
    have hmap := congrArg (List.map (·.id)) (prepareAll_map_subscription h)
    rwa [List.map_map, List.map_map] at hmap
  exact hids ▸ nodup_gather _ _

theorem prepareAll_mem {repair : Repair} {subs : List Subscription} {works : List Rework}
    (h : repair.prepareAll subs = .ok works) {w : Rework} (hw : w ∈ works) :
    ∃ x ∈ gather repair.edits subs, Rework.prepare x.1 x.2.deleted x.2.proposals = .ok w :=
  exists_left_of_forall₂ (prepareAll_eq_ok h) hw

end Repair

/-! ## The replay starts -/

/-- The subscriptions of a bundle as they are loaded: identifiers tell subscriptions and events
apart, and the identifiers to come are not in use. -/
structure Loaded (subs : List Subscription) (next : Nat → EventId) : Prop where
  ids : (subs.map (·.id)).Nodup
  orderings : ∀ s ∈ subs, s.events.Pairwise (fun a b => a.ordering ≠ b.ordering)
  own : ∀ s ∈ subs, ∀ e ∈ s.events, e.subscription = s.id
  eventIds : ∀ s ∈ subs, (s.events.map (·.id)).Nodup
  owner : ∀ s ∈ subs, ∀ s' ∈ subs, ∀ e ∈ s.events, ∀ e' ∈ s'.events, e.id = e'.id → s.id = s'.id
  injective : Function.Injective next
  unused : ∀ s ∈ subs, ∀ e ∈ s.events, ∀ n, e.id ≠ next n

namespace Loaded

variable {subs : List Subscription} {next : Nat → EventId} {works : List Rework}

theorem workIds (h : Loaded subs next)
    (hworks : (works.map (·.subscription)).Sublist subs) : (works.map (·.id)).Nodup := by
  have hid : (fun w : Rework => w.id) = (·.id) ∘ (·.subscription) := rfl
  rw [hid, ← List.map_map]
  exact h.ids.sublist (hworks.map _)

theorem mem_of_work (hworks : (works.map (·.subscription)).Sublist subs) {w : Rework}
    (hw : w ∈ works) : w.subscription ∈ subs :=
  hworks.subset (List.mem_map_of_mem hw)

theorem mem_of_kept {w : Rework} (hp : w.Prepared) {e : Event} (he : e ∈ w.kept) :
    e ∈ w.subscription.events :=
  (mem_effectiveEvents.1 (hp.kept_sublist.subset he)).1

theorem settled_kept (h : Loaded subs next) {w : Rework} (hw : w.subscription ∈ subs)
    (hp : w.Prepared) : Settled w.kept :=
  (Settled.ofEffective (h.orderings _ hw)).sublist hp.kept_sublist

/-- No two events kept share an identifier, whatever their subscriptions. -/
theorem nodup_kept (h : Loaded subs next) (hworks : (works.map (·.subscription)).Sublist subs)
    (hprep : ∀ w ∈ works, w.Prepared) : ((works.flatMap (·.kept)).map (·.id)).Nodup := by
  rw [List.map_flatMap, List.nodup_flatMap]
  refine ⟨fun w hw => ?_, ?_⟩
  · exact (nodup_ids_effectiveEvents (h.eventIds _ (mem_of_work hworks hw))).sublist
      ((hprep w hw).kept_sublist.map _)
  · refine (List.pairwise_map.1 (h.workIds hworks)).imp_of_mem fun {w w'} hw hw' hne => ?_
    simp only [Function.onFun]
    refine List.disjoint_left.2 fun i hi hi' => hne ?_
    obtain ⟨e, he, rfl⟩ := List.mem_map.1 hi
    obtain ⟨e', he', hid⟩ := List.mem_map.1 hi'
    exact h.owner _ (mem_of_work hworks hw) _ (mem_of_work hworks hw')
      e (mem_of_kept (hprep w hw) he) e' (mem_of_kept (hprep w' hw') he') hid.symm

end Loaded

namespace Rework

variable {cx : ReplayContext} {w : Rework}

/-- The phases still owed lie behind the last event kept. -/
theorem owedPhases_behind {owed : List Prospect} (h : w.owedPhases cx = .ok owed) :
    ∀ p ∈ owed, p.subscription = w.id ∧ ∀ last, w.lastKept? = some last → last < p.date := by
  unfold owedPhases at h
  split at h
  · cases h
    simp
  · split at h
    next date t hlast ht =>
      split at h
      · cases h
        simp
      · obtain ⟨schedule, -, rfl⟩ := map_eq_ok.1 h
        intro p hp
        cases schedule with
        | none => simp at hp
        | some schedule =>
          simp only [Option.map_some, Option.getD_some, Prospect.ofSchedule, List.mem_map,
            List.mem_filter, decide_eq_true_eq] at hp
          obtain ⟨phase, ⟨-, hlt⟩, rfl⟩ := hp
          refine ⟨rfl, fun last hl => ?_⟩
          rw [hlast] at hl
          cases hl
          exact hlt
    · cases h
      simp

end Rework

/-- Every date passes the check, so no proposal precedes what its subscription keeps. -/
theorem Workbench.lastKept_le {b : Workbench} (h : b.datesFault? = none) {w : Rework}
    (hw : w ∈ b.works) {p : Proposal} (hp : p ∈ w.proposals) {last : Instant}
    (hlast : w.lastKept? = some last) : last ≤ p.effective := by
  simp only [datesFault?, List.findSome?_eq_none_iff] at h
  have hfault := h w hw p hp
  unfold dateFault? at hfault
  split at hfault
  · cases hfault
  · simpa [hlast, Instant.lt_def, Instant.le_def] using hfault

/-- New events go behind all events of the bundle. -/
theorem Workbench.ordering_lt_next {b : Workbench} {s : Subscription} (hs : s ∈ b.subscriptions)
    {e : Event} (he : e ∈ s.events) : e.ordering < b.nextOrdering := by
  have hle : s.maxOrdering ≤ b.subscriptions.foldl (fun n s => max n s.maxOrdering) 0 :=
    (foldl_max_le.1 (Nat.le_refl _)).2 _ hs
  exact Nat.lt_succ_of_le (Nat.le_trans (ordering_le_maxOrdering he) hle)

theorem Workbench.datesFault?_of_fault? {b : Workbench} (h : b.fault? = none) :
    b.datesFault? = none := by
  simp only [fault?, Option.or_eq_none_iff] at h
  exact h.1

namespace Replay

variable {cx : ReplayContext} {works works' : List Rework}

theorem mem_agenda {op : Operation} :
    op ∈ agenda works ↔ ∃ w ∈ works, op.subscription = w.id ∧ op.proposal ∈ w.proposals := by
  simp only [agenda, mem_sortBy, List.mem_flatMap, List.mem_map]
  constructor
  · rintro ⟨w, hw, p, hp, rfl⟩
    exact ⟨w, hw, rfl, hp⟩
  · rintro ⟨w, hw, hid, hp⟩
    exact ⟨w, hw, op.proposal, hp, by rw [← hid]⟩

theorem run_eq_ok : run cx works = .ok works' ↔
    ∃ owed, List.Forall₂ (fun w ps => w.owedPhases cx = .ok ps) works owed ∧
      ∃ r, performAll cx ⟨works, sortBy Prospect.le owed.flatten, 0⟩ (agenda works) = .ok r ∧
        r.works = works' := by
  simp only [run, bind_eq_ok, pure_eq_ok, mapM_eq_ok]

theorem mem_owed {owed : List (List Prospect)}
    (h : List.Forall₂ (fun w ps => w.owedPhases cx = .ok ps) works owed) {p : Prospect}
    (hp : p ∈ owed.flatten) : ∃ w ∈ works, ∃ ps, w.owedPhases cx = .ok ps ∧ p ∈ ps := by
  obtain ⟨ps, hps, hp⟩ := List.mem_flatten.1 hp
  obtain ⟨w, hw, howed⟩ := exists_left_of_forall₂ h hps
  exact ⟨w, hw, ps, howed, hp⟩

theorem run_bare (h : run cx works = .ok works') :
    works'.map Rework.bare = works.map Rework.bare := by
  obtain ⟨owed, -, r, hr, rfl⟩ := run_eq_ok.1 h
  exact (performAll_induct (P := fun r _ => r.works.map Rework.bare = works.map Rework.bare)
    (fun _ _ _ _ _ _ h => (enter_bare _).trans h)
    (fun _ _ _ _ _ _ _ _ _ h => (record_bare _ _ _).trans h) (fun _ _ _ _ h => h) hr rfl).1

end Replay

theorem Sweep.start {cx : ReplayContext} {b : Workbench} {owed : List (List Prospect)}
    (hload : Loaded b.subscriptions cx.ids)
    (hworks : (b.works.map (·.subscription)).Sublist b.subscriptions)
    (hprep : ∀ w ∈ b.works, w.Prepared) (hadded : ∀ w ∈ b.works, w.added = [])
    (hfault : b.datesFault? = none)
    (hord : cx.firstOrdering = b.nextOrdering)
    (howed : List.Forall₂ (fun w ps => w.owedPhases cx = .ok ps) b.works owed) :
    Sweep cx ⟨b.works, sortBy Prospect.le owed.flatten, 0⟩ (Replay.agenda b.works) := by
  have hids := hload.workIds hworks
  have hevents : ∀ w ∈ b.works, w.events = w.kept := by
    intro w hw
    simp [Rework.events, hadded w hw]
  have hmem : ∀ w ∈ b.works, ∀ e ∈ w.events, e ∈ w.subscription.events := fun w hw e he =>
    Loaded.mem_of_kept (hprep w hw) (hevents w hw ▸ he)
  have hsettled : ∀ w ∈ b.works, Settled w.kept := fun w hw =>
    hload.settled_kept (Loaded.mem_of_work hworks hw) (hprep w hw)
  have hunique : ∀ w ∈ b.works, ∀ w' ∈ b.works, w.id = w'.id → w = w' := fun w hw w' hw' h =>
    List.inj_on_of_nodup_map hids hw hw' h
  exact {
    ids := hids
    prospects := Prospect.pairwise_sortBy_le _
    proposals := Operation.pairwise_sortBy_le _
    inLine := by
      intro w hw e he
      constructor
      · intro p hp hid
        obtain ⟨w', hw', ps, hps, hp⟩ := Replay.mem_owed howed (mem_sortBy.1 hp)
        obtain ⟨hown, hbehind⟩ := Rework.owedPhases_behind hps p hp
        obtain rfl := hunique w' hw' w hw (hown.symm.trans hid)
        exact Rework.kept_le ((hsettled w' hw).inOrder.imp Event.Before.date_le)
          (fun last hlast => Int.le_of_lt (hbehind last hlast)) e (hevents w' hw ▸ he)
      · intro op hop hid
        obtain ⟨w', hw', hown, hp⟩ := Replay.mem_agenda.1 hop
        obtain rfl := hunique w' hw' w hw (hown.symm.trans hid)
        exact Rework.kept_le ((hsettled w' hw).inOrder.imp Event.Before.date_le)
          (fun last hlast => Workbench.lastKept_le hfault hw hp hlast) e (hevents w' hw ▸ he)
    settled := by
      intro w hw
      rw [hevents w hw]
      exact hsettled w hw
    orderings := by
      intro w hw e he
      rw [hord]
      exact Workbench.ordering_lt_next (Loaded.mem_of_work hworks hw) (hmem w hw e he)
    injective := hload.injective
    unused := by
      intro w hw e he n _
      exact hload.unused _ (Loaded.mem_of_work hworks hw) e (hmem w hw e he) n
    distinct := by
      have hflat : b.works.flatMap (·.events) = b.works.flatMap (·.kept) := by
        simp only [List.flatMap]
        rw [List.map_congr_left hevents]
      rw [hflat]
      exact hload.nodup_kept hworks hprep
    own := by
      intro w hw e he
      exact hload.own _ (Loaded.mem_of_work hworks hw) e (hmem w hw e he)
    uncancels := by
      intro w hw e he
      simp [hadded w hw] at he
    drawn := by
      intro w hw e he
      simp [hadded w hw] at he }

/-! ## The plan -/

/-- What the replay of a repair is carried out with. -/
def Workbench.replayContext (b : Workbench) (catalog : Catalog) (context : CallContext)
    (now : Instant) (ids : Nat → EventId) : ReplayContext :=
  { catalog, bundleStart := b.bundleStart, stamp := .ofContext context now, ids,
    firstOrdering := b.nextOrdering }

/-- A plan that came out of a repair of the bundle on the bench, with its subscriptions worked out
as `works`. -/
structure Planned (b : Workbench) (cx : ReplayContext) (repair : Repair) (view : String)
    (works : List Rework) (plan : RepairPlan) : Prop where
  upToDate : repair.viewId = view
  prepared : repair.prepareAll b.subscriptions = .ok b.works
  known : ∀ e ∈ repair.edits, ∃ s ∈ b.subscriptions, s.id = e.subscription
  faultless : b.fault? = none
  ran : Replay.run cx b.works = .ok works
  ordering : cx.firstOrdering = b.nextOrdering
  viewOf : plan.view = ⟨view, b.bundle.id, b.subscriptions.map (Workbench.timelineOf works)⟩
  subscriptions : plan.commit.subscriptions = (works.filter (·.isTouched)).map b.repaired
  bundle : plan.commit.bundle = b.bundle.id
  expected : plan.commit.expectedView = repair.viewId

theorem planRepair_eq_ok {catalog : Catalog} {bundle : Bundle} {view : String}
    {subs : List Subscription} {repair : Repair} {context : CallContext} {now : Instant}
    {ids : Nat → EventId} {plan : RepairPlan}
    (h : planRepair catalog bundle view subs repair context now ids = .ok plan) :
    ∃ (benched works : List Rework),
      Planned ⟨bundle, subs, benched⟩
        (Workbench.replayContext ⟨bundle, subs, benched⟩ catalog context now ids)
        repair view works plan := by
  simp only [planRepair, guard_eq_ok, not_not] at h
  obtain ⟨hview, -, h⟩ := h
  split at h
  · simp [bind_eq_ok, throw_ne_ok] at h
  next hstranger =>
    simp only [bind_eq_ok, liftRepair_eq_ok] at h
    obtain ⟨benched, hbenched, h⟩ := h
    split at h
    · simp [bind_eq_ok, throw_ne_ok] at h
    next hfault =>
      simp only [bind_eq_ok, pure_eq_ok] at h
      obtain ⟨works, hworks, rfl⟩ := h
      have hknown := Repair.stranger?_eq_none_iff.1 (Option.eq_none_iff_forall_ne_some.2 hstranger)
      exact ⟨benched, works, hview, hbenched, hknown, Option.eq_none_iff_forall_ne_some.2 hfault,
        hworks, rfl, rfl, rfl, rfl, rfl⟩

namespace Planned

variable {b : Workbench} {cx : ReplayContext} {repair : Repair} {view : String}
  {works : List Rework} {plan : RepairPlan}

theorem benched (h : Planned b cx repair view works plan) :
    (b.works.map (·.subscription)).Sublist b.subscriptions :=
  Repair.prepareAll_subscriptions h.prepared

theorem benched_prepared (h : Planned b cx repair view works plan) {w : Rework} (hw : w ∈ b.works) :
    w.Prepared ∧ w.added = [] := by
  obtain ⟨x, -, hx⟩ := Repair.prepareAll_mem h.prepared hw
  obtain ⟨hprep, -, -, -, hadded⟩ := Rework.prepare_eq_ok.1 hx
  exact ⟨hprep, hadded⟩

theorem exists_benched (h : Planned b cx repair view works plan) {w : Rework} (hw : w ∈ works) :
    ∃ w₀ ∈ b.works, w.bare = w₀.bare := by
  have hmem : w.bare ∈ b.works.map Rework.bare :=
    Replay.run_bare h.ran ▸ List.mem_map_of_mem hw
  obtain ⟨w₀, hw₀, hbare⟩ := List.mem_map.1 hmem
  exact ⟨w₀, hw₀, hbare.symm⟩

theorem bare_mem (h : Planned b cx repair view works plan) {w : Rework} (hw : w ∈ works) :
    w.bare ∈ b.works := by
  obtain ⟨w₀, hw₀, hbare⟩ := h.exists_benched hw
  rwa [hbare, Rework.bare, ← (h.benched_prepared hw₀).2]

theorem exists_worked (h : Planned b cx repair view works plan) {w₀ : Rework}
    (hw₀ : w₀ ∈ b.works) : ∃ w ∈ works, w.bare = w₀.bare := by
  have hmem : w₀.bare ∈ works.map Rework.bare :=
    (Replay.run_bare h.ran).symm ▸ List.mem_map_of_mem hw₀
  exact List.mem_map.1 hmem

theorem work_prepared (h : Planned b cx repair view works plan) {w : Rework} (hw : w ∈ works) :
    w.Prepared := by
  obtain ⟨w₀, hw₀, hbare⟩ := h.exists_benched hw
  exact (h.benched_prepared hw₀).1.of_bare hbare

theorem work_mem (h : Planned b cx repair view works plan) {w : Rework} (hw : w ∈ works) :
    w.subscription ∈ b.subscriptions := by
  obtain ⟨w₀, hw₀, hbare⟩ := h.exists_benched hw
  have hsub := congrArg Rework.subscription hbare
  change w.subscription = w₀.subscription at hsub
  rw [hsub]
  exact Loaded.mem_of_work h.benched hw₀

/-- The sweep begins with what is owed to the subscriptions on the bench. -/
theorem swept (h : Planned b cx repair view works plan)
    (hload : Loaded b.subscriptions cx.ids) :
    ∃ owed, List.Forall₂ (fun w ps => w.owedPhases cx = .ok ps) b.works owed ∧
      Sweep cx ⟨b.works, sortBy Prospect.le owed.flatten, 0⟩ (Replay.agenda b.works) ∧
      ∃ r, Replay.performAll cx ⟨b.works, sortBy Prospect.le owed.flatten, 0⟩
        (Replay.agenda b.works) = .ok r ∧ r.works = works := by
  obtain ⟨owed, howed, hran⟩ := Replay.run_eq_ok.1 h.ran
  exact ⟨owed, howed, Sweep.start hload h.benched (fun w hw => (h.benched_prepared hw).1)
    (fun w hw => (h.benched_prepared hw).2) (Workbench.datesFault?_of_fault? h.faultless)
    h.ordering howed, hran⟩

/-- The works in the end are those of a sweep that is over. -/
theorem sweep (h : Planned b cx repair view works plan)
    (hload : Loaded b.subscriptions cx.ids) : ∃ r, r.works = works ∧ Sweep cx r [] := by
  obtain ⟨_, -, hstart, r, hr, hworks⟩ := h.swept hload
  exact ⟨r, hworks, hstart.performAll hr⟩

theorem work_edits (h : Planned b cx repair view works plan)
    (hload : Loaded b.subscriptions cx.ids) {w : Rework} (hw : w ∈ works) :
    (∃ e ∈ repair.edits, e.subscription = w.id) ∧
      w.deleted = (repair.edits.filter (·.subscription == w.id)).flatMap (·.deleted) ∧
      w.proposals = sortBy Proposal.dateLe
        ((repair.edits.filter (·.subscription == w.id)).flatMap (·.proposals)) := by
  obtain ⟨w₀, hw₀, hbare⟩ := h.exists_benched hw
  obtain ⟨x, hx, hprep⟩ := Repair.prepareAll_mem h.prepared hw₀
  obtain ⟨-, hsub, hdeleted, hproposals, -⟩ := Rework.prepare_eq_ok.1 hprep
  obtain ⟨-, hedit, hxdeleted, hxproposals⟩ := Repair.mem_gather hload.ids hx
  have hid : x.1.id = w.id :=
    congrArg (·.id) (hsub.symm.trans (congrArg Rework.subscription hbare).symm)
  rw [hid] at hedit hxdeleted hxproposals
  exact ⟨hedit, ((congrArg Rework.deleted hbare).trans hdeleted).trans hxdeleted,
    ((congrArg Rework.proposals hbare).trans hproposals).trans (congrArg _ hxproposals)⟩

theorem exists_work (h : Planned b cx repair view works plan)
    (hload : Loaded b.subscriptions cx.ids) {e : Edit} (he : e ∈ repair.edits) :
    ∃ w ∈ works, w.id = e.subscription := by
  obtain ⟨s, hs, hid⟩ := h.known e he
  obtain ⟨x, hx, rfl⟩ := Repair.exists_gather hload.ids hs ⟨e, he, hid.symm⟩
  obtain ⟨w₀, hw₀, hprep⟩ := exists_right_of_forall₂ (Repair.prepareAll_eq_ok h.prepared) hx
  obtain ⟨w, hw, hbare⟩ := h.exists_worked hw₀
  refine ⟨w, hw, ?_⟩
  rw [← hid, ← (Rework.prepare_eq_ok.1 hprep).2.1]
  exact congrArg (·.subscription.id) hbare

theorem isTouched_iff (h : Planned b cx repair view works plan)
    (hload : Loaded b.subscriptions cx.ids) {w : Rework} (hw : w ∈ works) :
    w.isTouched = true ↔ ∃ e ∈ repair.edits, e.subscription = w.id ∧ e.isNoop = false := by
  obtain ⟨-, hdeleted, hproposals⟩ := h.work_edits hload hw
  have hempty : w.proposals = [] ↔
      (repair.edits.filter (·.subscription == w.id)).flatMap (·.proposals) = [] := by
    rw [hproposals, ← List.length_eq_zero_iff, length_sortBy, List.length_eq_zero_iff]
  simp only [Rework.isTouched, Bool.or_eq_true, Bool.not_eq_true', List.isEmpty_eq_false_iff,
    ne_eq, hempty, hdeleted, List.flatMap_eq_nil_iff, List.mem_filter, beq_iff_eq, and_imp,
    not_forall, Edit.isNoop, Bool.and_eq_false_iff]
  constructor
  · rintro (⟨e, he, hid, hne⟩ | ⟨e, he, hid, hne⟩)
    · exact ⟨e, he, hid, .inl hne⟩
    · exact ⟨e, he, hid, .inr hne⟩
  · rintro ⟨e, he, hid, hne | hne⟩
    · exact .inl ⟨e, he, hid, hne⟩
    · exact .inr ⟨e, he, hid, hne⟩

theorem isNoop_of_untouched (h : Planned b cx repair view works plan)
    (hload : Loaded b.subscriptions cx.ids) {i : SubscriptionId}
    (hi : ∀ w ∈ works, w.id = i → w.isTouched = false) {e : Edit} (he : e ∈ repair.edits)
    (hid : e.subscription = i) : e.isNoop = true := by
  by_contra hne
  obtain ⟨w, hw, hwid⟩ := h.exists_work hload he
  have htouched := (h.isTouched_iff hload hw).2 ⟨e, he, hwid.symm, by simpa using hne⟩
  rw [hi w hw (hwid.trans hid)] at htouched
  cases htouched

theorem mem_commit (h : Planned b cx repair view works plan) {sub : RepairedSubscription} :
    sub ∈ plan.commit.subscriptions ↔ ∃ w ∈ works, w.isTouched = true ∧ b.repaired w = sub := by
  rw [h.subscriptions, List.mem_map]
  simp only [List.mem_filter, and_assoc]

theorem repaired_mem (h : Planned b cx repair view works plan) {w : Rework} (hw : w ∈ works)
    (htouched : w.isTouched = true) : b.repaired w ∈ plan.commit.subscriptions :=
  h.mem_commit.2 ⟨w, hw, htouched, rfl⟩

theorem commit_foreign (h : Planned b cx repair view works plan) {i : SubscriptionId}
    (hi : ∀ w ∈ works, w.id = i → w.isTouched = false) :
    ∀ sub ∈ plan.commit.subscriptions, i ≠ sub.id := by
  intro sub hsub hid
  obtain ⟨w, hw, htouched, rfl⟩ := h.mem_commit.1 hsub
  rw [hi w hw hid.symm] at htouched
  cases htouched

/-- The base plan that the repair is about, if there is no other. -/
theorem editedBase?_eq (h : Planned b cx repair view works plan)
    (hload : Loaded b.subscriptions cx.ids) {w : Rework} (hw : w ∈ works)
    (hbase : w.isBaseLike = true)
    (hsole : ∀ x ∈ b.subscriptions, x.isBaseLike = true → x = w.subscription) :
    b.editedBase? = some w.bare := by
  have hbare := h.bare_mem hw
  obtain ⟨w', hw'⟩ := Option.isSome_iff_exists.1
    (List.find?_isSome.2 ⟨_, hbare, hbase⟩ : (b.works.find? (·.isBaseLike)).isSome = true)
  have hmem := List.mem_of_find?_eq_some hw'
  have hkind := List.find?_some hw'
  have hsame : w'.subscription = w.subscription :=
    hsole _ (Loaded.mem_of_work h.benched hmem) hkind
  rw [Workbench.editedBase?, hw', List.inj_on_of_nodup_map (hload.workIds h.benched) hmem hbare
    (congrArg (·.id) hsame)]

end Planned

end Tenure
