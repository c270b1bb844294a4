import Tenure.Proofs.Coherence
import Tenure.Proofs.Renaming

/-!
# The order of listing does not matter

A history is a list of events and a repair a list of edits, but neither list says anything by its
order.

**Theorem (`listing_ignored`).** Events with distinct identifiers give the same effective events,
transitions and states in whatever order they are listed. Timeline order ends with the identifier,
so the events can be put in order in one way only, and all that follows is read off that.

**Theorem (`edits_relisted`).** A repair comes to the same if edits of different subscriptions are
listed in another order, or if an edit is listed in several parts. A bundle takes the edits of each
subscription together (`Repair.SameAsked`), in the order in which they are listed, and goes through
its subscriptions in an order of its own.
-/

namespace Tenure

/-! ## Events -/

section Histories

variable {es fs : List Event}

theorem mem_superseded_congr (h : ∀ e, e ∈ es ↔ e ∈ fs) (i : EventId) :
    i ∈ superseded es ↔ i ∈ superseded fs := by
  simp only [mem_superseded, h]

theorem standingAt_congr (h : effectiveEvents es = effectiveEvents fs) (category : Category)
    (t : Instant) : standingAt es category t = standingAt fs category t := by
  unfold standingAt transitions
  rw [h]

/-- **A history may be listed in any order.** The same events lose their effect, and the effective
events, the transitions and the state at every date are the same. -/
theorem listing_ignored (hids : (es.map (·.id)).Nodup) (h : es.Perm fs) :
    (∀ i, i ∈ superseded es ↔ i ∈ superseded fs) ∧
      effectiveEvents es = effectiveEvents fs ∧ transitions es = transitions fs ∧
        ∀ category t, standingAt es category t = standingAt fs category t := by
  have hids' : (fs.map (·.id)).Nodup := (h.map _).nodup_iff.1 hids
  have hmem : ∀ e, e ∈ es ↔ e ∈ fs := fun e => h.mem_iff
  have heffective := effectiveEvents_congr hids hids' hmem
  exact ⟨mem_superseded_congr hmem, heffective, congrArg (transitionsFrom .start) heffective,
    standingAt_congr heffective⟩

end Histories

namespace Sample

/-- Three events of one day and a change of the plan they start. The change and the phase tie in
their ordering too, so the change stands in front by its identifier. -/
def tied : List Event :=
  [{ event 4 5 (.phase "evergreen") with ordering := 2 },
    event 1 5 (.create ⟨"pistol-monthly", "trial", "DEFAULT"⟩),
    { event 3 5 (.change ⟨"shotgun-monthly", "trial", "DEFAULT"⟩) with ordering := 2 },
    event 6 30 .cancel, event 7 20 .uncancel]

end Sample

/-- The cancellation has lost its effect however the events are listed. -/
theorem listing_ignored_sample :
    superseded Sample.tied.reverse = [⟨6⟩] ∧
      (transitions Sample.tied).map (·.event) = [⟨1⟩, ⟨3⟩, ⟨4⟩] ∧
      (transitions Sample.tied.reverse).map (·.event) = [⟨1⟩, ⟨3⟩, ⟨4⟩] ∧
      (standingAt Sample.tied.reverse .base (Sample.day 40)).bind (·.target?) =
        some ⟨"shotgun-monthly", "evergreen", "DEFAULT"⟩ := by
  have hids : (Sample.tied.map (·.id)).Nodup := by decide
  obtain ⟨-, -, htransitions, hstanding⟩ :=
    listing_ignored hids (List.reverse_perm Sample.tied).symm
  rw [← htransitions, ← hstanding]
  decide

/-! ## Edits -/

namespace Repair

/-- Two lists of edits ask the same of every subscription, with its edits taken together. -/
structure SameAsked (edits edits' : List Edit) : Prop where
  edited : ∀ i, (∃ e ∈ edits, e.subscription = i) ↔ ∃ e ∈ edits', e.subscription = i
  deleted : ∀ i, (edits.filter (·.subscription == i)).flatMap (·.deleted) =
    (edits'.filter (·.subscription == i)).flatMap (·.deleted)
  proposals : ∀ i, (edits.filter (·.subscription == i)).flatMap (·.proposals) =
    (edits'.filter (·.subscription == i)).flatMap (·.proposals)

namespace SameAsked

variable {edits edits' : List Edit}

theorem filter_eq_nil_iff (h : SameAsked edits edits') (i : SubscriptionId) :
    edits.filter (·.subscription == i) = [] ↔ edits'.filter (·.subscription == i) = [] := by
  rw [filter_edits_eq_nil, filter_edits_eq_nil, h.edited]

theorem without (h : SameAsked edits edits') (j : SubscriptionId) :
    SameAsked (edits.filter (·.subscription != j)) (edits'.filter (·.subscription != j)) where
  edited i := by
    rw [← not_iff_not, ← filter_edits_eq_nil, ← filter_edits_eq_nil, filter_edits_without,
      filter_edits_without]
    split
    · rfl
    · exact h.filter_eq_nil_iff i
  deleted i := by
    rw [filter_edits_without, filter_edits_without]
    split
    · rfl
    · exact h.deleted i
  proposals i := by
    rw [filter_edits_without, filter_edits_without]
    split
    · rfl
    · exact h.proposals i

theorem gather_eq (h : SameAsked edits edits') (subs : List Subscription) :
    gather edits subs = gather edits' subs := by
  induction subs generalizing edits edits' with
  | nil => rfl
  | cons s ss ih =>
    unfold gather
    split
    next hnone =>
      rw [(h.filter_eq_nil_iff s.id).1 hnone]
      exact ih h
    next hsome =>
      split
      next hnone => exact (hsome ((h.filter_eq_nil_iff s.id).2 hnone)).elim
      next => rw [h.deleted, h.proposals, ih (h.without s.id)]

theorem symm (h : SameAsked edits edits') : SameAsked edits' edits :=
  ⟨fun i => (h.edited i).symm, fun i => (h.deleted i).symm, fun i => (h.proposals i).symm⟩

theorem of_perm (hids : (edits.map (·.subscription)).Nodup) (h : edits.Perm edits') :
    SameAsked edits edits' := by
  have hfilter (i : SubscriptionId) :
      edits.filter (·.subscription == i) = edits'.filter (·.subscription == i) := by
    -- Either list has one edit of the subscription at most.
    have hone {fs : List Edit} (hfs : (fs.map (·.subscription)).Nodup) :
        (fs.filter (·.subscription == i)).Pairwise (fun _ _ => False) := by
      refine ((List.pairwise_map.1 hfs).filter _).imp_of_mem fun {e f} he hf hne => hne ?_
      rw [beq_iff_eq.1 (List.mem_filter.1 he).2, beq_iff_eq.1 (List.mem_filter.1 hf).2]
    exact (h.filter _).eq_of_pairwise (fun _ _ _ _ hno _ => hno.elim) (hone hids)
      (hone ((h.map _).nodup_iff.1 hids))
  exact ⟨fun i => by simp only [h.mem_iff], fun i => by rw [hfilter], fun i => by rw [hfilter]⟩

theorem refl (edits : List Edit) : SameAsked edits edits :=
  ⟨fun _ => Iff.rfl, fun _ => rfl, fun _ => rfl⟩

theorem append {more more' : List Edit} (h : SameAsked edits edits') (h' : SameAsked more more') :
    SameAsked (edits ++ more) (edits' ++ more') where
  edited i := by
    simp only [List.mem_append, or_and_right, exists_or, h.edited, h'.edited]
  deleted i := by
    rw [List.filter_append, List.filter_append, List.flatMap_append, List.flatMap_append,
      h.deleted, h'.deleted]
  proposals i := by
    rw [List.filter_append, List.filter_append, List.flatMap_append, List.flatMap_append,
      h.proposals, h'.proposals]

theorem of_parts {parts : List Edit} {edit : Edit} (hne : parts ≠ [])
    (hown : ∀ p ∈ parts, p.subscription = edit.subscription)
    (hdeleted : parts.flatMap (·.deleted) = edit.deleted)
    (hproposals : parts.flatMap (·.proposals) = edit.proposals) : SameAsked [edit] parts := by
  have hfilter (i : SubscriptionId) : parts.filter (·.subscription == i) =
      if edit.subscription = i then parts else [] := by
    split
    next hi => exact List.filter_eq_self.2 fun p hp => beq_iff_eq.2 ((hown p hp).trans hi)
    next hi =>
      refine List.filter_eq_nil_iff.2 fun p hp => ?_
      rwa [hown p hp, beq_iff_eq]
  refine ⟨fun i => ?_, fun i => ?_, fun i => ?_⟩
  · rw [← not_iff_not, ← filter_edits_eq_nil, ← filter_edits_eq_nil, hfilter]
    by_cases hi : edit.subscription = i <;> simp [hi, hne]
  · rw [hfilter]
    by_cases hi : edit.subscription = i <;> simp [hi, hdeleted]
  · rw [hfilter]
    by_cases hi : edit.subscription = i <;> simp [hi, hproposals]

end SameAsked

theorem Passes.relisted {repair : Repair} {b : Workbench} {view : String} {edits : List Edit}
    (h : repair.Passes b view) (hsame : SameAsked repair.edits edits) :
    Passes { repair with edits } b view :=
  { h with
    known := by
      refine stranger?_eq_none_iff.2 fun e he => ?_
      obtain ⟨f, hf, hid⟩ := (hsame.edited e.subscription).2 ⟨e, he, rfl⟩
      exact hid ▸ stranger?_eq_none_iff.1 h.known f hf
    prepared := by
      have hprepared := h.prepared
      rwa [prepareAll, hsame.gather_eq] at hprepared }

end Repair

/-- What a repair comes to depends on what it asks of each subscription. -/
theorem planRepair_relisted (catalog : Catalog) (bundle : Bundle) (view : String)
    (subs : List Subscription) {repair : Repair} {edits : List Edit}
    (h : Repair.SameAsked repair.edits edits) (context : CallContext) (now : Instant)
    (ids : Nat → EventId) :
    (planRepair catalog bundle view subs { repair with edits } context now ids).toOption =
      (planRepair catalog bundle view subs repair context now ids).toOption := by
  by_cases hpasses : ∃ works, repair.Passes ⟨bundle, subs, works⟩ view
  · obtain ⟨works, hpasses⟩ := hpasses
    rw [hpasses.planRepair_eq catalog context now ids,
      (hpasses.relisted h).planRepair_eq catalog context now ids]
    rfl
  · have hpasses' : ∀ works,
        ¬ Repair.Passes { repair with edits } ⟨bundle, subs, works⟩ view := fun works hpasses' =>
      hpasses ⟨works, hpasses'.relisted h.symm⟩
    obtain ⟨err, herr⟩ := planRepair_of_not_passes (not_exists.1 hpasses)
    obtain ⟨err', herr'⟩ := planRepair_of_not_passes hpasses'
    rw [herr, herr']
    rfl

/-- **Edits may be listed in any order.** If they are of different subscriptions, the repair comes
to the same with its edits listed otherwise, or fails either way; so it does with one of its edits
listed in parts. The new events stand under the same orderings, and under whatever identifiers are
given out. -/
theorem edits_relisted (catalog : Catalog) (bundle : Bundle) (view : String)
    (subs : List Subscription) (repair : Repair) (context : CallContext) (now : Instant)
    (ids ids' : Nat → EventId) :
    let outcome (edits : List Edit) (ids : Nat → EventId) :=
      (planRepair catalog bundle view subs { repair with edits } context now ids).toOption
    let renamed := RepairPlan.reissued (Workbench.nextOrdering ⟨bundle, subs, []⟩) ids'
    (∀ edits, (repair.edits.map (·.subscription)).Nodup → repair.edits.Perm edits →
        outcome edits ids' = (outcome repair.edits ids).map renamed) ∧
      ∀ front edit parts back, repair.edits = front ++ edit :: back → parts ≠ [] →
        (∀ p ∈ parts, p.subscription = edit.subscription) →
        parts.flatMap (·.deleted) = edit.deleted → parts.flatMap (·.proposals) = edit.proposals →
          outcome (front ++ parts ++ back) ids' = (outcome repair.edits ids).map renamed := by
  intro outcome renamed
  have hsame (edits : List Edit) (h : Repair.SameAsked repair.edits edits) :
      outcome edits ids' = (outcome repair.edits ids).map renamed := by
    show (planRepair catalog bundle view subs { repair with edits } context now ids').toOption =
      (planRepair catalog bundle view subs repair context now ids).toOption.map renamed
    rw [planRepair_relisted catalog bundle view subs h,
      planRepair_reissued catalog bundle view subs repair context now ids ids']
    cases planRepair catalog bundle view subs repair context now ids <;> rfl
  refine ⟨fun edits hids hperm => hsame edits (.of_perm hids hperm), ?_⟩
  intro front edit parts back hedits hne hown hdeleted hproposals
  refine hsame _ ?_
  rw [hedits, List.append_assoc, ← List.singleton_append]
  exact (Repair.SameAsked.refl front).append
    ((Repair.SameAsked.of_parts hne hown hdeleted hproposals).append (.refl back))

namespace Sample

/-- The outcome of a repair with these edits on the bench. -/
def outcome (edits : List Edit) (ids : Nat → EventId) : Option RepairPlan :=
  (planRepair engine.catalog bench.bundle "4-432000000" bench.subscriptions
    { recut with edits } caller (day 6) ids).toOption

/-- Other identifiers. -/
def reissued (n : Nat) : EventId := ⟨200 + n⟩

/-- The edit of the base plan in parts, one of them with nothing to do. -/
def recutParts : List Edit :=
  [⟨⟨1⟩, [], [⟨.cancel, day 40, none, none⟩]⟩, ⟨⟨1⟩, [], []⟩,
    ⟨⟨1⟩, [⟨2⟩], [⟨.change, day 10, some ⟨"shotgun", .monthly, "DEFAULT"⟩, none⟩]⟩]

end Sample

/-- The edits of the add-on and the base plan in the other order, and the edit of the base plan in
parts. -/
theorem edits_relisted_sample : ∃ plan,
    Sample.outcome Sample.recut.edits Sample.issued = some plan ∧
    Sample.outcome Sample.recut.edits.reverse Sample.reissued =
      some (plan.reissued 5 Sample.reissued) ∧
    Sample.outcome (Sample.recutParts ++ [⟨⟨2⟩, [⟨4⟩], []⟩]) Sample.reissued =
      some (plan.reissued 5 Sample.reissued) ∧
    (plan.reissued 5 Sample.reissued).view.subscriptions.map
      (·.new.map fun e => (e.id, e.ordering)) =
      [[(⟨200⟩, 5), (⟨201⟩, 6), (⟨203⟩, 8)], [(⟨202⟩, 7)]] := by
  have hread : (Sample.outcome Sample.recut.edits Sample.issued).map
      (fun plan => (plan.reissued 5 Sample.reissued).view.subscriptions.map
        (·.new.map fun e => (e.id, e.ordering))) =
      some [[(⟨200⟩, 5), (⟨201⟩, 6), (⟨203⟩, 8)], [(⟨202⟩, 7)]] := by decide +kernel
  have hfirst :
      Workbench.nextOrdering ⟨Sample.bench.bundle, Sample.bench.subscriptions, []⟩ = 5 := by
    decide +kernel
  obtain ⟨plan, hplan, hnew⟩ := Option.map_eq_some_iff.1 hread
  obtain ⟨horder, hparts⟩ := edits_relisted Sample.engine.catalog Sample.bench.bundle "4-432000000"
    Sample.bench.subscriptions Sample.recut Sample.caller (Sample.day 6) Sample.issued
    Sample.reissued
  have hreversed := horder Sample.recut.edits.reverse (by decide) (List.reverse_perm _).symm
  have hsplit := hparts [] ⟨⟨1⟩, [⟨2⟩], _⟩ Sample.recutParts [⟨⟨2⟩, [⟨4⟩], []⟩] rfl (by decide)
    (by decide) (by decide) (by decide)
  rw [hfirst] at hreversed hsplit
  exact ⟨plan, hplan, hreversed.trans (congrArg (Option.map _) hplan),
    hsplit.trans (congrArg (Option.map _) hplan), hnew⟩

end Tenure
