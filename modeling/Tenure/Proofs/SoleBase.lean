import Tenure.Proofs.TermSteps

/-!
# At most one active base

A bundle is meant to have one base plan at a time. What guards this is a check on creation, which
asks whether another base-like subscription is active at the start of the new one. Two things get
past it:

* a subscription created in front of one that starts later;
* a subscription that is uncancelled when its successor is there already, since an uncancellation
  asks nothing of the kind.

Both are steps that *crowd* a bundle, and there are no others: as long as no step crowds, no two
base-like subscriptions of a bundle are ever active together, and a step that crowds leaves two
that are (`sole_base_unless_crowded`).
-/

namespace Tenure

/-! ## Crowding -/

namespace Step

/-- The step creates a base-like subscription, and another one of the bundle is active at its start,
as it is stored, or later on. -/
def CreatesBeside (st : Step) (s : Store) : Prop :=
  ∃ bundle spec sub, st.call = .createSubscription bundle spec ∧
    st.engine.newSubscription st.context st.now bundle spec s = .ok sub ∧
    sub.isBaseLike = true ∧ ∃ t, sub.start.floorMillis ≤ t ∧ s.activeBases bundle t ≠ []

/-- The step uncancels a base-like subscription, and another one of the bundle is active when it was
to end or later on. A date in a leap second may be stored behind the end, and then nothing comes of
it. -/
def UncancelsBeside (st : Step) (s : Store) : Prop :=
  ∃ i sub f, st.call = .uncancel i ∧ s.subscription? i = some sub ∧ sub.isBaseLike = true ∧
    sub.finish? = some f ∧ (st.context.requested.getD st.now).floorMillis ≤ f ∧
      ∃ t, f ≤ t ∧ s.activeBases sub.bundle t ≠ []

/-- The step is carried out and puts a base-like subscription beside another. -/
def Crowds (st : Step) (s : Store) : Prop :=
  st.Succeeds s ∧ (st.CreatesBeside s ∨ st.UncancelsBeside s)

end Step

/-! ## Terms -/

/-- No two base-like terms of a bundle have an instant in common. -/
def SoleBase (xs : List Term) : Prop :=
  ∀ x ∈ xs, ∀ y ∈ xs, ∀ b t, x.IsBaseAt b t → y.IsBaseAt b t → x.id = y.id

namespace SoleBase

variable {xs : List Term} {c z : Term} {date f : Instant}

theorem opened (h : SoleBase xs) (hnew : ∀ x ∈ xs, ∀ b t, x.IsBaseAt b t → ¬ z.IsBaseAt b t) :
    SoleBase (xs ++ [z]) := by
  intro x hx y hy b t hxbase hybase
  rw [List.mem_append, List.mem_singleton] at hx hy
  rcases hx with hx | rfl <;> rcases hy with hy | rfl
  · exact h x hx y hy b t hxbase hybase
  · exact (hnew x hx b t hxbase hybase).elim
  · exact (hnew y hy b t hybase hxbase).elim
  · rfl

theorem cut (h : SoleBase xs) : SoleBase (xs.map (c.cut date)) := by
  refine List.forall_mem_map.2 fun x hx => List.forall_mem_map.2 fun y hy b t hxbase hybase => ?_
  exact h x hx y hy b t ⟨hxbase.bundle, hxbase.kind, Term.has_of_cut hxbase.has⟩
    ⟨hybase.bundle, hybase.kind, Term.has_of_cut hybase.has⟩

/-- From where it was to end on, the restored term has no instant in common with another. -/
theorem restored (h : SoleBase xs) (hc : c ∈ xs) (hunique : ∀ x ∈ xs, x.id = c.id → x = c)
    (hend : c.finish = some f) (hnew : c.category.isBaseLike = true → date ≤ f → ∀ y ∈ xs, ∀ t,
      f ≤ t → y.IsBaseAt c.bundle t → False) :
    SoleBase (xs.map (c.restore date)) := by
  have hbeside {y : Term} (hy : y ∈ xs) (hne : y.id ≠ c.id) {b : BundleId} {t : Instant}
      (hcbase : (c.restore date c).IsBaseAt b t) (hybase : y.IsBaseAt b t) : False := by
    obtain rfl : c.bundle = b := Term.restore_bundle ▸ hcbase.bundle
    have hbaseLike : c.category.isBaseLike = true := Term.restore_category ▸ hcbase.kind
    have hstart : c.start ≤ t := Term.restore_start ▸ hcbase.has.start_le
    by_cases hlate : f ≤ t
    · by_cases hreaches : date ≤ f
      · exact hnew hbaseLike hreaches y hy t hlate hybase
      · rw [Term.restore_of_ends hend (Int.not_le.1 hreaches)] at hcbase
        exact absurd (hcbase.has.2 f hend) (Int.not_lt.2 hlate)
    · have hhas : c.Has t := ⟨hstart, fun f' hf' => by
        rw [hend, Option.mem_some_iff] at hf'
        exact hf' ▸ Int.not_le.1 hlate⟩
      exact hne (h y hy c hc c.bundle t hybase ⟨rfl, hbaseLike, hhas⟩)
  -- Base-like terms other than `c` are as they were.
  have hcases {x : Term} (hx : x ∈ xs) {b : BundleId} {t : Instant}
      (hbase : (c.restore date x).IsBaseAt b t) : x = c ∨ x.id ≠ c.id ∧ x.IsBaseAt b t := by
    by_cases hid : x.id = c.id
    · exact .inl (hunique x hx hid)
    · have hbaseLike : x.category.isBaseLike = true := Term.restore_category ▸ hbase.kind
      have hsame : c.restore date x = x :=
        Term.restore_of_not_recalls fun hr => hid (Term.id_of_recalls hbaseLike hr)
      exact .inr ⟨hid, hsame ▸ hbase⟩
  refine List.forall_mem_map.2 fun x hx => List.forall_mem_map.2 fun y hy b t hxbase hybase => ?_
  rw [Term.restore_id, Term.restore_id]
  rcases hcases hx hxbase with rfl | ⟨hne, hxold⟩ <;>
    rcases hcases hy hybase with rfl | ⟨hne', hyold⟩
  · rfl
  · exact (hbeside hy hne' hxbase hyold).elim
  · exact (hbeside hx hne hybase hxold).elim
  · exact h x hx y hy b t hxold hyold

end SoleBase

namespace Store.Regular

variable {s : Store} (hs : s.Regular) {b : BundleId} {t : Instant}

include hs

theorem one_lt_activeBases : 1 < (s.activeBases b t).length ↔
    ∃ x ∈ s.terms, ∃ y ∈ s.terms, x.id ≠ y.id ∧ x.IsBaseAt b t ∧ y.IsBaseAt b t := by
  have hnodup : ((s.activeBases b t).map (·.id)).Nodup :=
    (hs.sound.tidy.nodup_subscriptionsOf b).sublist (List.filter_sublist.map _)
  constructor
  · intro hlength
    match hbases : s.activeBases b t, hlength with
    | sub :: sub' :: _, _ =>
      have hmem : ∀ a ∈ [sub, sub'], a ∈ s.activeBases b t := fun a ha => by
        rw [hbases]
        exact List.mem_of_mem_take (i := 2) ha
      obtain ⟨x, hx, hxbase, hxid⟩ := hs.mem_activeOf (hmem sub (by simp))
      obtain ⟨y, hy, hybase, hyid⟩ := hs.mem_activeOf (hmem sub' (by simp))
      refine ⟨x, hx, y, hy, fun hid => ?_, hxbase, hybase⟩
      rw [hbases, List.map_cons, List.map_cons] at hnodup
      exact (List.nodup_cons.1 hnodup).1 (by simp [← hxid, ← hyid, hid])
  · rintro ⟨x, hx, y, hy, hne, hxbase, hybase⟩
    obtain ⟨sub, (hsub : sub ∈ s.activeBases b t), hid⟩ := hs.exists_activeOf hx hxbase
    obtain ⟨sub', (hsub' : sub' ∈ s.activeBases b t), hid'⟩ := hs.exists_activeOf hy hybase
    match hbases : s.activeBases b t with
    | [] => simp [hbases] at hsub
    | [only] =>
      rw [hbases, List.mem_singleton] at hsub hsub'
      exact (hne (by rw [← hid, ← hid', hsub, hsub'])).elim
    | _ :: _ :: _ => simp

theorem soleBase_iff : SoleBase s.terms ↔ ∀ b t, (s.activeBases b t).length ≤ 1 := by
  constructor
  · intro h b t
    refine Nat.not_lt.1 fun hlt => ?_
    obtain ⟨x, hx, y, hy, hne, hxbase, hybase⟩ := hs.one_lt_activeBases.1 hlt
    exact hne (h x hx y hy b t hxbase hybase)
  · intro h x hx y hy b t hxbase hybase
    by_contra hne
    have hlt := hs.one_lt_activeBases.2 ⟨x, hx, y, hy, hne, hxbase, hybase⟩
    exact absurd (h b t) (Nat.not_le.2 hlt)

end Store.Regular

/-! ## Steps -/

section Steps

variable {s : Store} {st : Step}

/-- A step that does not crowd leaves no two bases active together. -/
theorem Step.soleBase (hs : s.Regular) (hlife : st.call.isLifecycle = true)
    (hcrowds : ¬ st.Crowds s) (hsole : SoleBase s.terms) : SoleBase (st.after s).terms := by
  by_cases hdone : st.Succeeds s
  · have hnot : ¬ (st.CreatesBeside s ∨ st.UncancelsBeside s) := fun h => hcrowds ⟨hdone, h⟩
    obtain ⟨-, hturn⟩ := st.turned hs hlife
    generalize st.after s = t at hturn
    cases hturn with
    | same _ hterms => exact hterms ▸ hsole
    | @opened e context now bundle spec sub planned hterms =>
      refine hterms ▸ hsole.opened fun x hx b t hxbase hnew => hnot (.inl ?_)
      obtain rfl : bundle = b := (Engine.bundle_of_newSubscription planned).symm.trans hnew.bundle
      exact ⟨bundle, spec, sub, rfl, planned, hnew.kind, t, hnew.has.start_le,
        hs.activeOf_ne_nil.2 ⟨x, hx, hxbase⟩⟩
    | cut _ _ _ hterms => exact hterms ▸ hsole.cut
    | @restored e context now c f mem ends ahead hterms =>
      refine hterms ▸ hsole.restored mem (fun x hx => hs.unique hx mem) ends
        fun hbase hreaches y hy t hle hybase => hnot (.inr ?_)
      obtain ⟨sub, -, hsub, hdescribes⟩ := hs.exists_subscription mem
      refine ⟨c.id, sub, f, rfl, hsub, ?_, hdescribes.finish?.trans ends, hreaches, t, hle,
        hs.activeOf_ne_nil.2 ⟨y, hy, ?_⟩⟩
      · rw [Subscription.isBaseLike, hdescribes.category]
        exact hbase
      · rw [hdescribes.bundle]
        exact hybase
  · rw [st.after_of_fails hs.sound hdone]
    exact hsole

/-- A step that crowds leaves two bases active together. -/
theorem Step.crowded (hs : s.Regular) (hlife : st.call.isLifecycle = true) (h : st.Crowds s) :
    ∃ b t, 1 < ((st.after s).activeBases b t).length := by
  obtain ⟨hdone, ⟨bundle, spec, sub, hcall, hplanned, hbase, t, hle, hne⟩ |
    ⟨i, sub, f, hcall, hsub, hbase, hend, hreaches, t, hle, hne⟩⟩ := h
  all_goals
    obtain ⟨hregular, hturn⟩ := st.turned hs hlife
    obtain ⟨y, hy, hybase⟩ := hs.activeOf_ne_nil.1 hne
  · obtain ⟨sub', hplanned', hterms⟩ := hturn.of_creation hdone hcall
    rw [hplanned] at hplanned'
    cases hplanned'
    have hnodup := hregular.nodup_ids
    rw [hterms, List.map_append, List.nodup_append] at hnodup
    have hnew : sub.opening.IsBaseAt bundle t := ⟨Engine.bundle_of_newSubscription hplanned, hbase,
      (Span.has_of_open rfl).2 hle⟩
    exact ⟨bundle, t, hregular.one_lt_activeBases.2 ⟨y, by simp [hterms, hy], sub.opening,
      by simp [hterms], hnodup.2.2 _ (List.mem_map_of_mem hy) _ (by simp), hybase, hnew⟩⟩
  · obtain ⟨c, hc, -, hid, -, -, hterms⟩ := hturn.of_uncancel hdone hcall
    obtain ⟨c', hc', hid', hdescribes⟩ := hs.term_of_subscription? hsub
    obtain rfl := hs.unique hc' hc (hid'.trans hid.symm)
    rw [hdescribes.finish?] at hend
    have hne : y.id ≠ c'.id := by
      intro hid
      obtain rfl := hs.unique hy hc hid
      exact absurd (hybase.has.2 f hend) (Int.not_lt.2 hle)
    have hkept : c'.restore (st.context.requested.getD st.now).floorMillis y = y :=
      Term.restore_of_not_recalls fun h => hne (Term.id_of_recalls hybase.kind h)
    have hrestored : (c'.restore (st.context.requested.getD st.now).floorMillis c').IsBaseAt
        sub.bundle t :=
      { bundle := by rw [Term.restore_bundle, hdescribes.bundle]
        kind := by rw [Term.restore_category, ← hdescribes.category]; exact hbase
        has := (Term.restore_has (.inl rfl) hend hreaches).2
          (Int.le_trans (hs.start_le_finish hc f hend) hle) }
    exact ⟨sub.bundle, t, hregular.one_lt_activeBases.2 ⟨c'.restore _ c',
      hterms ▸ List.mem_map_of_mem hc, y, hterms ▸ List.mem_map.2 ⟨y, hy, hkept⟩,
      by simpa using hne.symm, hrestored, hybase⟩⟩

end Steps

/-! ## Runs -/

/-- Operations of a subscription's life none of which crowds a bundle. -/
def uncrowded (s : Store) (st : Step) : Prop := st.call.isLifecycle = true ∧ ¬ st.Crowds s

theorem Run.soleBase {s : Store} (h : Run uncrowded {} s) : s.Regular ∧ SoleBase s.terms := by
  have hstep : ∀ s st, uncrowded s st → s.Regular ∧ SoleBase s.terms →
      (st.after s).Regular ∧ SoleBase (st.after s).terms := fun s st ha hs =>
    ⟨(st.turned hs.1 ha.1).1, Step.soleBase hs.1 ha.1 ha.2 hs.2⟩
  exact h.preserves hstep ⟨Store.regular_empty, by simp [SoleBase, Store.terms]⟩

/-- **At most one active base.** After operations of subscriptions' lives that never crowd a bundle,
a bundle has one active base at most, at any instant. The next operation leaves two of them active
together if and only if it crowds. -/
theorem sole_base_unless_crowded {s : Store} (h : Run uncrowded {} s) :
    (∀ b t, (s.activeBases b t).length ≤ 1) ∧
      ∀ st : Step, st.call.isLifecycle = true →
        ((∃ b t, 1 < ((st.after s).activeBases b t).length) ↔ st.Crowds s) := by
  obtain ⟨hregular, hsole⟩ := h.soleBase
  refine ⟨hregular.soleBase_iff.1 hsole, fun st hlife => ⟨fun ⟨b, t, hlt⟩ => ?_, ?_⟩⟩
  · by_contra hcrowds
    have hnext := Step.soleBase hregular hlife hcrowds hsole
    exact absurd ((st.turned hregular hlife).1.soleBase_iff.1 hnext b t) (Nat.not_le.2 hlt)
  · exact Step.crowded hregular hlife

namespace Sample

/-- A bundle with one base plan, which begins on day 5. -/
def awaited : List Step :=
  [step 0 (.createBundle ⟨1⟩ "key"),
    step 5 (.createSubscription ⟨1⟩ ⟨"pistol", .monthly, "DEFAULT"⟩)]

/-- Another base plan, which begins on day 1. -/
def inFront : Step := step 1 (.createSubscription ⟨1⟩ ⟨"assault-rifle", .monthly, "DEFAULT"⟩)

theorem run_awaited : Run uncrowded {} (after awaited) := by
  have hfirst : Run uncrowded {} (after (awaited.take 1)) := by
    refine run_after (List.forall_mem_singleton.2 fun s => ⟨rfl, ?_⟩)
    rintro ⟨-, ⟨_, _, _, hcall, -⟩ | ⟨_, _, _, hcall, -⟩⟩ <;> cases hcall
  refine .step _ hfirst ⟨rfl, ?_⟩
  have hnone (b : BundleId) (t : Instant) : (after (awaited.take 1)).activeBases b t = [] := by
    have hrecords : (after (awaited.take 1)).records = [] := by decide +kernel
    simp [Store.activeOf, Store.subscriptionsOf, hrecords]
  rintro ⟨-, ⟨_, _, _, _, _, _, t, _, hne⟩ | ⟨_, _, _, hcall, -⟩⟩
  · exact hne (hnone _ t)
  · cases hcall

end Sample

/-- The plan in front crowds the bundle: from day 5 on there are two active bases. -/
theorem sole_base_unless_crowded_sample :
    (∀ b t, ((Sample.after Sample.awaited).activeBases b t).length ≤ 1) ∧
      Sample.inFront.Crowds (Sample.after Sample.awaited) := by
  obtain ⟨hsole, hcrowds⟩ := sole_base_unless_crowded Sample.run_awaited
  refine ⟨hsole, (hcrowds Sample.inFront rfl).1 ⟨⟨1⟩, Sample.day 5, ?_⟩⟩
  decide +kernel

end Tenure
