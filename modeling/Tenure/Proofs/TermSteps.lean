import Tenure.Proofs.Terms

/-!
# How terms turn

The operations of a subscription's life act on the terms of a store in a simple way
(`Step.turned`):

* a creation adds a term that begins at the date asked for and has no end;
* a cancellation ends one term, and with a base plan those of the bundle's add-ons (`Term.cut`);
* an uncancellation opens the end of one term, and with a base plan those of the add-ons that end
  when it does (`Term.restore`), unless its date is stored behind that end, as that of a leap second
  may be;
* anything else leaves the terms as they are.

So what holds of activity in every store that such operations lead to is proved of lists of terms.
-/

namespace Tenure

/-! ## Cancellations -/

theorem Instant.lt_of_lt_earlier_left {t : Instant} {a b : Option Instant}
    (h : ∀ f ∈ earlier a b, t < f) : ∀ f ∈ a, t < f := by
  rintro f ⟨⟩
  cases b with
  | none => exact h f rfl
  | some g =>
    have hmin := h _ rfl
    split at hmin
    · exact hmin
    next hle => exact Int.lt_trans hmin (Int.not_le.1 hle)

theorem Instant.lt_of_lt_earlier_right {t : Instant} {a b : Option Instant}
    (h : ∀ f ∈ earlier a b, t < f) : ∀ f ∈ b, t < f := by
  rintro f ⟨⟩
  cases a with
  | none => exact h f rfl
  | some g =>
    have hmin := h _ rfl
    split at hmin
    next hle => exact Int.lt_of_lt_of_le hmin hle
    · exact hmin

theorem Instant.later_le_iff {a b c : Instant} : later a b ≤ c ↔ a ≤ c ∧ b ≤ c := by
  unfold later
  split <;> simp only [Instant.le_def] at * <;> omega

theorem Instant.later_of_le {a b : Instant} (h : b ≤ a) : later a b = a := by
  unfold later
  split
  next hle => exact Instant.ext (Int.le_antisymm h hle)
  · rfl

theorem Instant.later_of_lt {a b : Instant} (h : a < b) : later a b = b :=
  if_pos (Int.le_of_lt h)

theorem Instant.floorMillis_later {a b : Instant} (ha : a.RoundsDown) (hb : b.floorMillis = b) :
    (later a b).floorMillis = later a.floorMillis b := by
  have hback := le_floorMillis hb ha
  unfold later
  by_cases hle : a ≤ b
  · have hfloor : a.floorMillis ≤ b := hb ▸ floorMillis_mono ha hle
    rw [if_pos hle, if_pos hfloor, hb]
  · by_cases hfloor : a.floorMillis ≤ b
    · have hsame := hback.2 (Int.le_of_lt (Int.not_le.1 hle))
      rw [if_neg hle, if_pos hfloor]
      exact Instant.ext (Int.le_antisymm hfloor hsame)
    · rw [if_neg hle, if_neg hfloor]

section CancelAll

variable {sub : Subscription} {subs : List Subscription} {date day : Instant} {d : Draft}

theorem Subscription.cancelDate?_eq_some : sub.cancelDate? date = some day ↔
    ∃ st, sub.standingAt date = some st ∧ st.finish.any (· ≤ date) = false ∧
      Instant.later date sub.start = day := by
  unfold cancelDate?
  cases sub.standingAt date with
  | none => simp
  | some st => by_cases hended : st.finish.any (· ≤ date) = true <;> simp [hended]

theorem Subscription.le_of_cancelDate? (h : sub.cancelDate? date = some day) : date ≤ day := by
  obtain ⟨_, -, -, rfl⟩ := cancelDate?_eq_some.1 h
  exact (Instant.later_le_iff.1 (Int.le_refl _)).1

theorem mem_cancelAll : d ∈ cancelAll subs date ↔
    ∃ sub ∈ subs, ∃ day, sub.cancelDate? date = some day ∧ d = ⟨sub.id, day, .cancel⟩ := by
  simp only [cancelAll, List.mem_filterMap, Option.map_eq_some_iff, @eq_comm _ d]

theorem filter_cancelAll (hnodup : (subs.map (·.id)).Nodup) (hsub : sub ∈ subs) :
    (cancelAll subs date).filter (·.subscription == sub.id) =
      (sub.cancelDate? date).toList.map fun day => ⟨sub.id, day, .cancel⟩ := by
  refine (filter_key_filterMap hnodup (fun a _ d hd => ?_) hsub).trans ?_
  · obtain ⟨_, -, rfl⟩ := Option.map_eq_some_iff.1 hd
    rfl
  · cases sub.cancelDate? date <;> rfl

end CancelAll

namespace Term

variable {c x : Term} {date : Instant}

/-- The date for which `x` is cancelled when `c` is cancelled for `date`, if it is: with a base plan
go the add-ons that have not ended by then. -/
def cutDate? (c : Term) (date : Instant) (x : Term) : Option Instant :=
  if x.id = c.id then some date
  else if c.category = .base ∧ x.bundle = c.bundle ∧ x.category = .addOn ∧
      ¬ x.finish.any (· ≤ date) then some (Instant.later date x.start)
  else none

/-- The term `x` after `c` is cancelled for `date`. -/
def cut (c : Term) (date : Instant) (x : Term) : Term :=
  { x with finish := Instant.earlier ((c.cutDate? date x).map (·.floorMillis)) x.finish }

theorem start_le_cutDate? (hself : x.id = c.id → x = c) (hbegun : c.start ≤ date) {d : Instant}
    (h : c.cutDate? date x = some d) : x.start ≤ d := by
  unfold cutDate? at h
  split at h
  next hid =>
    cases h
    exact hself hid ▸ hbegun
  · split at h
    · cases h
      exact (Instant.later_le_iff.1 (Int.le_refl _)).2
    · cases h

theorem cut_of_none (h : c.cutDate? date x = none) : c.cut date x = x := by
  rw [cut, h]
  rfl

/-- What is cut has no instants that it did not have. -/
theorem has_of_cut {t : Instant} (h : (c.cut date x).Has t) : x.Has t :=
  ⟨h.1, fun f hf => Instant.lt_of_lt_earlier_right h.2 f hf⟩

theorem cut_of_base (hne : x.id ≠ c.id) (hbase : x.category.isBaseLike = true) :
    c.cut date x = x := by
  have haddOn : ¬ x.category = .addOn := fun h => by simp [h, Category.isBaseLike] at hbase
  exact cut_of_none (by rw [cutDate?, if_neg hne, if_neg fun h => haddOn h.2.2.1])

theorem cut_of_not_base (hne : x.id ≠ c.id) (hbase : c.category ≠ .base) : c.cut date x = x :=
  cut_of_none (by rw [cutDate?, if_neg hne, if_neg fun h => hbase h.1])

theorem cut_self (hlive : c.finish = none) : (c.cut date c).finish = some date.floorMillis := by
  rw [cut, cutDate?, if_pos rfl, hlive]
  rfl

/-- With a base plan end the add-ons of its bundle. -/
theorem lt_of_has_cut {t : Instant} (hx : x.InMillis) (hne : x.id ≠ c.id)
    (hbase : c.category = .base) (hbundle : x.bundle = c.bundle) (haddOn : x.category = .addOn)
    (h : (c.cut date x).Has t) : t < date.floorMillis := by
  by_cases hended : x.finish.any (· ≤ date) = true
  · obtain ⟨f, hf, hend⟩ := (Option.any_eq_true _ _).1 hended
    have hfloor : f ≤ date.floorMillis := by
      rw [← hx.finish f hf]
      exact Instant.floorMillis_mono (Instant.roundsDown_of_floorMillis (hx.finish f hf))
        (of_decide_eq_true hend)
    exact Int.lt_of_lt_of_le ((has_of_cut h).2 f hf) hfloor
  · have hcut : c.cutDate? date x = some (Instant.later date x.start) := by
      rw [cutDate?, if_neg hne, if_pos ⟨hbase, hbundle, haddOn, hended⟩]
    have hlt : t < (Instant.later date x.start).floorMillis :=
      Instant.lt_of_lt_earlier_left h.2 _ (by rw [hcut]; rfl)
    unfold Instant.later at hlt
    split at hlt
    · rw [hx.start] at hlt
      exact absurd h.start_le (Int.not_le.2 hlt)
    · exact hlt

end Term

namespace Engine

variable {s : Store} {r q : SubscriptionRecord} {date : Instant} {b : BundleId}

theorem cascade_eq (subs : List Subscription) (date : Instant) :
    cascade subs date = cancelAll (subs.filter (·.category == .addOn)) date :=
  List.filterMap_filter.symm

theorem owner_of_mem_cascade {subs : List Subscription} {d : Draft} (h : d ∈ cascade subs date) :
    ∃ a ∈ subs, a.category = .addOn ∧ a.id = d.subscription := by
  rw [cascade_eq] at h
  obtain ⟨a, ha, _, -, rfl⟩ := mem_cancelAll.1 h
  obtain ⟨ha, hcategory⟩ := List.mem_filter.1 ha
  exact ⟨a, ha, eq_of_beq hcategory, rfl⟩

theorem filter_cascade (hs : s.Sound) (hr : r ∈ s.records) (hb : r.bundle = b)
    (hcategory : r.category = .addOn) :
    (cascade (s.subscriptionsOf b) date).filter (·.subscription == r.id) =
      ((s.visible r).cancelDate? date).toList.map fun day => ⟨r.id, day, .cancel⟩ := by
  have hmem : s.visible r ∈ (s.subscriptionsOf b).filter (·.category == .addOn) :=
    List.mem_filter.2 ⟨Store.mem_subscriptionsOf.2 ⟨r, hr, hb, rfl⟩, beq_iff_eq.2 hcategory⟩
  rw [cascade_eq]
  exact filter_cancelAll
    ((hs.tidy.nodup_subscriptionsOf b).sublist (List.filter_sublist.map _)) hmem

theorem cascade_addOn (hs : s.Regular) (hr : r ∈ s.records) (hb : r.bundle = b)
    (hcategory : r.category = .addOn) :
    (cascade (s.subscriptionsOf b) date).filter (·.subscription == r.id) =
      if (s.term r).finish.any (· ≤ date) then []
      else [⟨r.id, Instant.later date r.start, .cancel⟩] := by
  obtain ⟨st, hst, -, hfinish, -⟩ := (hs.describes hr).standing date
  rw [filter_cascade hs.sound hr hb hcategory, Subscription.cancelDate?, hst]
  simp only [hfinish]
  split <;> rfl

theorem cascade_other (hs : s.Regular) (hr : r ∈ s.records)
    (h : ¬ (r.bundle = b ∧ r.category = .addOn)) :
    (cascade (s.subscriptionsOf b) date).filter (·.subscription == r.id) = [] := by
  refine filter_key_of_not_mem fun d hd hid => ?_
  obtain ⟨a, ha, hcategory, howner⟩ := owner_of_mem_cascade hd
  obtain ⟨q, hq, hqb, rfl⟩ := Store.mem_subscriptionsOf.1 ha
  obtain rfl := hs.sound.tidy.record_unique hq hr (howner.trans hid)
  exact h ⟨hqb, hcategory⟩

theorem cancelDrafts_filter (hs : s.Regular) (hq : q ∈ s.records) (hr : r ∈ s.records) :
    ((⟨q.id, date, .cancel⟩ :: if (s.visible q).category == .base then
        cascade (s.subscriptionsOf (s.visible q).bundle) date else [] : List Draft)).filter
      (·.subscription == r.id) =
    ((s.term q).cutDate? date (s.term r)).toList.map fun d => ⟨r.id, d, .cancel⟩ := by
  rw [show (s.visible q).category = q.category from rfl,
    show (s.visible q).bundle = q.bundle from rfl]
  by_cases hself : r.id = q.id
  · obtain rfl := hs.sound.tidy.record_unique hr hq hself
    have hrest : (if r.category == .base then cascade (s.subscriptionsOf r.bundle) date
        else []).filter (·.subscription == r.id) = [] := by
      split
      next hbase => exact cascade_other hs hr fun haddOn => by simp [haddOn.2] at hbase
      · rfl
    rw [List.filter_cons_of_pos (by simp), hrest, Term.cutDate?, if_pos rfl]
    rfl
  · rw [List.filter_cons_of_neg (by simpa using Ne.symm hself), Term.cutDate?,
      if_neg (show ¬ (s.term r).id = (s.term q).id from hself)]
    by_cases hbase : q.category = .base
    · rw [if_pos (by simpa using hbase)]
      by_cases haddOn : r.bundle = q.bundle ∧ r.category = .addOn
      · rw [cascade_addOn hs hr haddOn.1 haddOn.2]
        by_cases hended : (s.term r).finish.any (· ≤ date) = true
        · rw [if_pos hended, if_neg fun h => h.2.2.2 hended]
          rfl
        · rw [if_neg hended, if_pos ⟨hbase, haddOn.1, haddOn.2, hended⟩]
          rfl
      · rw [cascade_other hs hr haddOn, if_neg fun h => haddOn ⟨h.2.1, h.2.2.1⟩]
        rfl
    · rw [if_neg (by simpa using hbase), if_neg fun h => hbase h.1]
      rfl

end Engine

section Steps

variable {s t : Store} {e : Engine} {context : CallContext} {now : Instant} {i : SubscriptionId}

/-- A subscription for which such a cancellation is written has its term cut. -/
theorem Store.Grows.term_of_cut {r : SubscriptionRecord} {fs : List Event} {c : Term}
    {date : Instant} (h : s.Grows t r fs)
    (hdrafts : List.Forall₂ Event.IsOf fs
      ((c.cutDate? date (s.term r)).toList.map fun d => ⟨r.id, d, .cancel⟩))
    (hmillis : (s.term r).InMillis)
    (hbehind : ∀ d, c.cutDate? date (s.term r) = some d → (s.term r).start ≤ d) :
    t.term r = c.cut date (s.term r) := by
  cases hcut : c.cutDate? date (s.term r) with
  | none =>
    rw [hcut] at hdrafts
    cases hdrafts
    rw [Term.cut_of_none hcut]
    exact h.term_of_others (by simp)
  | some d =>
    rw [hcut] at hdrafts
    obtain ⟨f, _, ⟨hpayload, heffective⟩, hnil, rfl⟩ := List.forall₂_cons_right_iff.1 hdrafts
    cases hnil
    have hdate : f.effective = d.floorMillis := heffective
    have hstart : r.start ≤ f.effective := by
      rw [hdate, ← show r.start.floorMillis = r.start from hmillis.start]
      exact Instant.floorMillis_mono (Instant.roundsDown_of_floorMillis hmillis.start)
        (hbehind d hcut)
    rw [h.term_of_cancel rfl (congrArg Payload.type hpayload) hstart, hdate, Term.cut, hcut]
    rfl

theorem Wrote.terms_of_cancel (hs : s.Regular) (h : Wrote s t ⟨e, context, now, .cancel i⟩) :
    t.Regular ∧ ∃ c ∈ s.terms, ∃ date, c.id = i ∧ c.finish = none ∧
      ((context.requested.getD now).RoundsDown → date.RoundsDown) ∧
        t.terms = s.terms.map (c.cut date) := by
  have ht := h.sound hs.sound
  cases h with
  | cancel planned rows =>
  have htypes := Engine.cancelEvents_type planned
  obtain ⟨sub, current, policy, hsub, rfl, hlive, -, rfl⟩ := Engine.cancelEvents_eq_ok planned
  obtain ⟨q, hq, rfl, rfl⟩ := (Store.subscription?_eq_some hs.sound.tidy).1 hsub
  have hle := Engine.le_policyDate policy (s.visible q) (context.requested.getD now)
  have hdown (hasked : (context.requested.getD now).RoundsDown) :=
    Engine.policyDate_dated (hs.sound.tidy.subscription?_dated hsub).2 hasked policy
  generalize Engine.policyDate policy (s.visible q) (context.requested.getD now) = date at *
  have hqt : s.term q ∈ s.terms := Store.mem_terms.2 ⟨q, hq, rfl⟩
  obtain ⟨hbegun, hnone⟩ := hs.live_of_liveTarget hq hlive
  have hbehind : (s.term q).start ≤ date := Int.le_trans hbegun hle
  have hstarts : starts ((Stamp.ofContext context now).events (e.supply s).event
      (⟨q.id, date, .cancel⟩ :: if (s.visible q).category == .base then
        Engine.cascade (s.subscriptionsOf (s.visible q).bundle) date else [])) = [] :=
    starts_eq_nil.2 fun f hf => by
      rw [htypes f hf]
      rfl
  obtain ⟨hregular, hterms⟩ := rows.terms_appended hs ht hstarts
    ((s.term q).cut date) fun r hr fs hgrows hlaid => by
      have hrt : s.term r ∈ s.terms := Store.mem_terms.2 ⟨r, hr, rfl⟩
      have hdrafts := hlaid.of_drafts
      rw [Engine.cancelDrafts_filter hs hq hr] at hdrafts
      exact hgrows.term_of_cut hdrafts (hs.inMillis hrt) fun d hcut =>
        Term.start_le_cutDate? (hs.unique hrt hqt) hbehind hcut
  exact ⟨hregular, _, hqt, _, rfl, hnone, hdown, hterms⟩

end Steps

/-! ## Uncancellations -/

namespace Term

/-- Uncancelling `c` goes to `x` as well: with a base plan come the add-ons that end when it
does. -/
def Recalls (c x : Term) : Prop :=
  x.id = c.id ∨
    c.category = .base ∧ x.bundle = c.bundle ∧ x.category = .addOn ∧ x.finish = c.finish

instance (c x : Term) : Decidable (c.Recalls x) := inferInstanceAs (Decidable (_ ∨ _))

/-- The term `x` after `c` is uncancelled for `date`: its end is taken away unless it lies in
front. -/
def restore (c : Term) (date : Instant) (x : Term) : Term :=
  if c.Recalls x then { x with finish := x.finish.filter (· < date) } else x

variable {c x : Term} {date t : Instant}

@[simp] theorem restore_id : (c.restore date x).id = x.id := by
  unfold restore
  split <;> rfl

@[simp] theorem restore_bundle : (c.restore date x).bundle = x.bundle := by
  unfold restore
  split <;> rfl

@[simp] theorem restore_category : (c.restore date x).category = x.category := by
  unfold restore
  split <;> rfl

@[simp] theorem restore_start : (c.restore date x).start = x.start := by
  unfold restore
  split <;> rfl

theorem restore_of_not_recalls (h : ¬ c.Recalls x) : c.restore date x = x := if_neg h

theorem restore_of_ends {f : Instant} (hend : x.finish = some f) (h : f < date) :
    c.restore date x = x := by
  unfold restore
  split
  · obtain ⟨⟨start, finish⟩, id, bundle, category⟩ := x
    obtain rfl : finish = some f := hend
    simp [h]
  · rfl

theorem has_restore (h : x.Has t) : (c.restore date x).Has t := by
  unfold restore
  split
  · exact ⟨h.1, fun f hf => h.2 f (Option.mem_filter_iff.1 hf).1⟩
  · exact h

theorem restore_has {f : Instant} (h : c.Recalls x) (hend : x.finish = some f) (hf : date ≤ f) :
    (c.restore date x).Has t ↔ x.start ≤ t := by
  rw [restore, if_pos h, hend]
  have hnot : ¬ f < date := Int.not_lt.2 hf
  exact Span.has_of_open (by simp [Option.filter, hnot])

theorem id_of_recalls (hbase : x.category.isBaseLike = true) (h : c.Recalls x) : x.id = c.id := by
  rcases h with h | ⟨-, -, haddOn, -⟩
  · exact h
  · rw [haddOn] at hbase
    cases hbase

end Term

theorem filter_beq_of_nodup {α : Type} [DecidableEq α] {xs : List α} (h : xs.Nodup) (a : α) :
    xs.filter (· == a) = if a ∈ xs then [a] else [] := by
  rw [List.filter_beq]
  by_cases ha : a ∈ xs
  · rw [if_pos ha, List.count_eq_one_of_mem h ha]
    rfl
  · rw [if_neg ha, List.count_eq_zero_of_not_mem ha]
    rfl

namespace Engine

variable {s : Store} {r q : SubscriptionRecord} {date f : Instant}

/-- The add-ons that end with a base plan which is going to end. -/
theorem mem_endingWith (hs : s.Regular) (hr : r ∈ s.records) (hf : date < f) {b : BundleId} :
    r.id ∈ (endingWith (s.subscriptionsOf b) date (some f)).map (·.id) ↔
      r.bundle = b ∧ r.category = .addOn ∧ (s.term r).finish = some f := by
  have hends : (s.visible r).category = .addOn ∧ ((s.visible r).standingAt date).any
      (fun st => st.isFutureCancelled && st.finish == some f) = true ↔
        r.category = .addOn ∧ (s.term r).finish = some f := by
    obtain ⟨st, hst, -, hfinish, -, hfuture⟩ := (hs.describes hr).standing date
    refine and_congr_right fun _ => ?_
    rw [hst, Option.any_some, hfuture, hfinish]
    cases (s.term r).finish with
    | none => simp
    | some f' =>
      simp only [Option.any_some, Bool.and_eq_true, decide_eq_true_eq, beq_iff_eq,
        Option.some.injEq, and_iff_right_iff_imp]
      rintro rfl
      exact hf
  rw [← hends]
  simp only [endingWith, List.mem_map, List.mem_filter, Bool.and_eq_true, beq_iff_eq]
  constructor
  · rintro ⟨a, ⟨ha, hcategory, hstanding⟩, hid⟩
    obtain ⟨q, hq, hb, rfl⟩ := Store.mem_subscriptionsOf.1 ha
    obtain rfl := hs.sound.tidy.record_unique hq hr hid
    exact ⟨hb, hcategory, hstanding⟩
  · rintro ⟨hb, hcategory, hstanding⟩
    exact ⟨s.visible r, ⟨Store.mem_subscriptionsOf.2 ⟨r, hr, hb, rfl⟩, hcategory, hstanding⟩, rfl⟩

theorem uncancelDrafts_filter (hs : s.Regular) (hq : q ∈ s.records) (hr : r ∈ s.records)
    (hend : (s.term q).finish = some f) (hf : date < f) :
    (((q.id :: (if (s.visible q).category == .base then
          endingWith (s.subscriptionsOf (s.visible q).bundle) date (some f) else []).map
        (·.id)).map fun i => (⟨i, date, .uncancel⟩ : Draft))).filter (·.subscription == r.id) =
      if (s.term q).Recalls (s.term r) then [⟨r.id, date, .uncancel⟩] else [] := by
  rw [show (s.visible q).category = q.category from rfl,
    show (s.visible q).bundle = q.bundle from rfl]
  have hmem (x : SubscriptionRecord) (hx : x ∈ s.records) :
      x.id ∈ (if q.category == .base then endingWith (s.subscriptionsOf q.bundle) date (some f)
        else []).map (·.id) ↔ q.category = .base ∧ x.bundle = q.bundle ∧ x.category = .addOn ∧
          (s.term x).finish = (s.term q).finish := by
    by_cases hbase : q.category = .base
    · rw [if_pos (by simpa using hbase), mem_endingWith hs hx hf, hend]
      exact (and_iff_right hbase).symm
    · rw [if_neg (by simpa using hbase)]
      simp [hbase]
  have hnodup : (q.id :: (if q.category == .base then
      endingWith (s.subscriptionsOf q.bundle) date (some f) else []).map (·.id)).Nodup := by
    refine List.nodup_cons.2 ⟨fun hself => ?_, ?_⟩
    · obtain ⟨hbase, -, haddOn, -⟩ := (hmem q hq).1 hself
      rw [hbase] at haddOn
      cases haddOn
    · split
      · exact (hs.sound.tidy.nodup_subscriptionsOf q.bundle).sublist (List.filter_sublist.map _)
      · exact .nil
  have hrecalls : r.id ∈ q.id :: (if q.category == .base then
      endingWith (s.subscriptionsOf q.bundle) date (some f) else []).map (·.id) ↔
        (s.term q).Recalls (s.term r) := by
    rw [List.mem_cons, hmem r hr]
    rfl
  rw [List.filter_map, Function.comp_def, filter_beq_of_nodup hnodup]
  by_cases hself : (s.term q).Recalls (s.term r)
  · rw [if_pos (hrecalls.2 hself), if_pos hself]
    rfl
  · rw [if_neg fun h => hself (hrecalls.1 h), if_neg hself]
    rfl

end Engine

section Steps

variable {s t : Store} {e : Engine} {context : CallContext} {now : Instant} {i : SubscriptionId}

/-- A subscription for which such an uncancellation is written has its term restored. -/
theorem Store.Grows.term_of_restore {r : SubscriptionRecord} {fs : List Event} {c : Term}
    {date : Instant} (h : s.Grows t r fs)
    (hdrafts : List.Forall₂ Event.IsOf fs
      (if c.Recalls (s.term r) then [⟨r.id, date, .uncancel⟩] else [])) :
    t.term r = c.restore date.floorMillis (s.term r) := by
  rw [Term.restore]
  by_cases hself : c.Recalls (s.term r)
  · rw [if_pos hself] at hdrafts ⊢
    obtain ⟨u, _, ⟨hpayload, heffective⟩, hnil, rfl⟩ := List.forall₂_cons_right_iff.1 hdrafts
    cases hnil
    rw [h.term_of_uncancel rfl (congrArg Payload.type hpayload), heffective]
  · rw [if_neg hself] at hdrafts ⊢
    cases hdrafts
    exact h.term_of_others (by simp)

/-- An uncancellation restores terms, the end of the first of which is still ahead. -/
theorem Wrote.terms_of_uncancel (hs : s.Regular) (h : Wrote s t ⟨e, context, now, .uncancel i⟩) :
    t.Regular ∧ ∃ c ∈ s.terms, ∃ f, c.id = i ∧ c.finish = some f ∧
      context.requested.getD now < f ∧
        t.terms = s.terms.map (c.restore (context.requested.getD now).floorMillis) := by
  have ht := h.sound hs.sound
  cases h with
  | uncancel planned rows =>
  have htypes := Engine.uncancelEvents_type planned
  obtain ⟨sub, st, hsub, rfl, hst, rfl⟩ := Engine.uncancelEvents_eq_ok planned
  obtain ⟨q, hq, rfl, rfl⟩ := (Store.subscription?_eq_some hs.sound.tidy).1 hsub
  generalize context.requested.getD now = date at *
  have hqt : s.term q ∈ s.terms := Store.mem_terms.2 ⟨q, hq, rfl⟩
  obtain ⟨f, hfinish, hend, hf⟩ : ∃ f, st.finish = some f ∧ (s.term q).finish = some f ∧
      date < f := by
    obtain ⟨hst, hfuture⟩ := Option.filter_eq_some_iff.1 hst
    obtain ⟨st', hst', -, hfinish, -, hfuture'⟩ := (hs.describes hq).standing date
    rw [hst] at hst'
    cases hst'
    rw [hfuture', Option.any_eq_true] at hfuture
    obtain ⟨f, hf, hlt⟩ := hfuture
    exact ⟨f, hfinish.trans hf, hf, by simpa using hlt⟩
  rw [hfinish] at rows htypes
  have hstarts : starts ((Stamp.ofContext context now).events (e.supply s).event
      ((q.id :: (if (s.visible q).category == .base then
          Engine.endingWith (s.subscriptionsOf (s.visible q).bundle) date (some f) else []).map
        (·.id)).map fun i => ⟨i, date, .uncancel⟩)) = [] :=
    starts_eq_nil.2 fun f hf => by
      rw [htypes f hf]
      rfl
  obtain ⟨hregular, hterms⟩ := rows.terms_appended hs ht hstarts
    ((s.term q).restore date.floorMillis) fun r hr fs hgrows hlaid => by
      have hdrafts := hlaid.of_drafts
      rw [Engine.uncancelDrafts_filter hs hq hr hend hf] at hdrafts
      exact hgrows.term_of_restore hdrafts
  exact ⟨hregular, _, hqt, f, rfl, hend, hf, hterms⟩

end Steps

/-! ## Creations -/

theorem Laid.opensOnce {n v : Nat} {fs es : List Event} {start : Instant}
    (h : Laid n fs (es.map (·, v))) (hids : (fs.map (·.id)).Nodup)
    (hrise : fs.Pairwise (fun a b => a.ordering < b.ordering))
    (hstarts : Tenure.starts es = [start])
    (hfirst : es.Pairwise fun a b => a.type = .cancel → b.type.startsSubscription = false) :
    OpensOnce start.floorMillis fs where
  ids := hids
  ordered := by
    refine pairwise_of_forall₂ h.forall₂ hfirst hrise ?_
    rintro _ _ a b ⟨k, -, rfl⟩ ⟨k', -, rfl⟩ - - hkind hlt
    exact ⟨hlt, hkind⟩
  starts := by
    rw [h.starts, hstarts]
    rfl

/-- A subscription that is created opens once, and has no end in sight. -/
theorem Engine.newSubscription_opens {e : Engine} {context : CallContext} {now : Instant}
    {bundle : BundleId} {spec : PlanSpec} {s : Store} {sub : Subscription}
    (h : e.newSubscription context now bundle spec s = .ok sub) {n v : Nat} {fs : List Event}
    (hlaid : Laid n fs (sub.events.map (·, v))) (hids : (fs.map (·.id)).Nodup)
    (hrise : fs.Pairwise (fun a b => a.ordering < b.ordering)) :
    OpensOnce sub.start.floorMillis fs ∧ endOf sub.start.floorMillis fs = none := by
  have htypes := newSubscription_type_ne h
  refine ⟨hlaid.opensOnce hids hrise (newSubscription_starts h)
    (List.pairwise_of_forall_mem_list fun a ha _ _ htype => (htypes a ha htype).elim),
    (endOf_eq_none hids).2 fun f hf => ?_⟩
  obtain ⟨x, hx, htype⟩ := hlaid.mem_type hf.mem
  exact htypes x hx (htype ▸ hf.type)

/-- The term of a subscription as it is created. -/
def Subscription.opening (sub : Subscription) : Term where
  start := sub.start.floorMillis
  finish := none
  id := sub.id
  bundle := sub.bundle
  category := sub.category

section Steps

variable {s t : Store} {e : Engine} {context : CallContext} {now : Instant}

theorem Rows.terms_scratch {subs : List Subscription}
    (h : Rows s t id (Store.scratchRecords subs) (Store.scratchEvents subs)) (hs : s.Regular)
    (ht : t.Sound) (hown : ∀ sub ∈ subs, ∀ e ∈ sub.events, e.subscription = sub.id)
    (hstarts : ∀ sub ∈ subs, starts sub.events = [sub.start])
    (hfirst : ∀ sub ∈ subs, sub.events.Pairwise fun a b =>
      a.type = .cancel → b.type.startsSubscription = false) :
    t.Regular ∧ (∀ sub ∈ subs, Laid s.events.length (t.shown (sub.toSubscriptionRecord.filed 1))
        (sub.events.map (·, 1))) ∧
      t.terms = s.terms ++ subs.map fun sub => t.term (sub.toSubscriptionRecord.filed 1) := by
  have hlaid := h.laid_scratch hs.sound.tidy hown
  have hold : ∀ r ∈ s.records, t.shown r = s.shown r :=
    fun r hr => h.shown_beside hs.sound.tidy hown hr
  refine ⟨⟨ht, fun r hr => ?_⟩, hlaid, ?_⟩
  · rw [h.records, List.map_id] at hr
    rcases List.mem_append.1 hr with hr | hr
    · rw [hold r hr]
      exact hs.opens r hr
    · obtain ⟨sub, hsub, rfl⟩ := List.mem_map.1 hr
      exact (hlaid sub hsub).opensOnce (Store.shown_ids ht.tidy _) (Store.shown_orderings ht.tidy _)
        (hstarts sub hsub) (hfirst sub hsub)
  · rw [Store.terms, Store.terms, h.records, List.map_id, List.map_append, Store.scratchRecords,
      List.map_map]
    congr 1
    refine List.map_congr_left fun r hr => ?_
    rw [Store.term, Store.term, hold r hr]

theorem Wrote.terms_of_creation {bundle : BundleId} {spec : PlanSpec} (hs : s.Regular)
    (h : Wrote s t ⟨e, context, now, .createSubscription bundle spec⟩) :
    t.Regular ∧ ∃ sub, e.newSubscription context now bundle spec s = .ok sub ∧
      t.terms = s.terms ++ [sub.opening] := by
  have ht := h.sound hs.sound
  cases h with
  | @createSubscription _ _ _ _ _ sub planned rows =>
  have htypes := Engine.newSubscription_type_ne planned
  obtain ⟨hregular, hlaid, hterms⟩ := rows.terms_scratch hs ht
    (Engine.newSubscription_scratch planned).own
    (by simpa using Engine.newSubscription_starts planned) (by
      simp only [List.mem_singleton, forall_eq]
      exact List.pairwise_of_forall_mem_list fun a ha _ _ htype => (htypes a ha htype).elim)
  obtain ⟨-, hend⟩ := Engine.newSubscription_opens planned (hlaid sub (by simp))
    (Store.shown_ids ht.tidy _) (Store.shown_orderings ht.tidy _)
  refine ⟨hregular, sub, planned, ?_⟩
  rw [hterms, List.map_singleton, Store.term, SubscriptionRecord.filed_start, spanOf, hend]
  rfl

end Steps

/-! ## Steps -/

/-- The calls of a subscription's life. -/
def Call.isLifecycle : Call → Bool
  | .repair .. | .migrate _ | .transfer _ => false
  | _ => true

/-- The calls that touch no term. -/
def Call.isQuiet : Call → Bool
  | .createBundle .. | .changePlan .. | .setChargedThrough .. => true
  | _ => false

/-- What a step of a subscription's life does to the terms of a store. -/
inductive Turn (s t : Store) : Step → Prop
  | same {st : Step} (quiet : st.Succeeds s → st.call.isQuiet = true) (terms : t.terms = s.terms) :
      Turn s t st
  | opened {e : Engine} {context : CallContext} {now : Instant} {bundle : BundleId}
      {spec : PlanSpec} {sub : Subscription}
      (planned : e.newSubscription context now bundle spec s = .ok sub)
      (terms : t.terms = s.terms ++ [sub.opening]) :
      Turn s t ⟨e, context, now, .createSubscription bundle spec⟩
  | cut {e : Engine} {context : CallContext} {now : Instant} {c : Term} {date : Instant}
      (mem : c ∈ s.terms) (live : c.finish = none)
      (down : (context.requested.getD now).RoundsDown → date.RoundsDown)
      (terms : t.terms = s.terms.map (c.cut date)) :
      Turn s t ⟨e, context, now, .cancel c.id⟩
  | restored {e : Engine} {context : CallContext} {now : Instant} {c : Term} {f : Instant}
      (mem : c ∈ s.terms) (ends : c.finish = some f) (ahead : context.requested.getD now < f)
      (terms : t.terms = s.terms.map (c.restore (context.requested.getD now).floorMillis)) :
      Turn s t ⟨e, context, now, .uncancel c.id⟩

namespace Turn

variable {s t : Store} {st : Step} (h : Turn s t st) (hdone : st.Succeeds s)

include h hdone

theorem of_creation {bundle : BundleId} {spec : PlanSpec}
    (hcall : st.call = .createSubscription bundle spec) :
    ∃ sub, st.engine.newSubscription st.context st.now bundle spec s = .ok sub ∧
      t.terms = s.terms ++ [sub.opening] := by
  cases h with
  | same quiet => exact absurd (quiet hdone) (by simp [hcall, Call.isQuiet])
  | opened planned terms =>
    cases hcall
    exact ⟨_, planned, terms⟩
  | cut | restored => cases hcall

theorem of_cancel {i : SubscriptionId} (hcall : st.call = .cancel i) :
    ∃ c ∈ s.terms, ∃ date, c.id = i ∧ c.finish = none ∧
      ((st.context.requested.getD st.now).RoundsDown → date.RoundsDown) ∧
        t.terms = s.terms.map (c.cut date) := by
  cases h with
  | same quiet => exact absurd (quiet hdone) (by simp [hcall, Call.isQuiet])
  | cut mem live down terms =>
    cases hcall
    exact ⟨_, mem, _, rfl, live, down, terms⟩
  | opened | restored => cases hcall

theorem of_uncancel {i : SubscriptionId} (hcall : st.call = .uncancel i) :
    ∃ c ∈ s.terms, ∃ f, c.id = i ∧ c.finish = some f ∧ st.context.requested.getD st.now < f ∧
      t.terms = s.terms.map (c.restore (st.context.requested.getD st.now).floorMillis) := by
  cases h with
  | same quiet => exact absurd (quiet hdone) (by simp [hcall, Call.isQuiet])
  | restored mem ends ahead terms =>
    cases hcall
    exact ⟨_, mem, _, rfl, ends, ahead, terms⟩
  | opened | cut => cases hcall

end Turn

/-- Steps of a subscription's life keep a store regular, and turn its terms. -/
theorem Step.turned {s : Store} (hs : s.Regular) {st : Step} (hlife : st.call.isLifecycle = true) :
    (st.after s).Regular ∧ Turn s (st.after s) st := by
  rcases st.idle_or_writes hs.sound with hidle | ⟨hdone, hwrote⟩
  · rw [hidle.after]
    refine ⟨hs, .same (fun hdone => ?_) rfl⟩
    obtain ⟨bundle, repair, hcall⟩ := hidle.dryRun hdone
    rw [hcall] at hlife
    cases hlife
  · generalize st.after s = t at hwrote
    have ht := hwrote.sound hs.sound
    cases id hwrote with
    | createBundle rows =>
      have rows : Rows s t id [] (s.atVersions []) := rows
      obtain ⟨hregular, hterms⟩ := rows.terms_appended hs ht rfl id
        fun r hr fs hgrows hlaid => by
          cases hlaid
          exact hgrows.term_of_others (by simp)
      exact ⟨hregular, .same (fun _ => rfl) (by rw [hterms, List.map_id])⟩
    | createSubscription planned rows =>
      obtain ⟨hregular, sub, hplanned, hterms⟩ := hwrote.terms_of_creation hs
      exact ⟨hregular, .opened hplanned hterms⟩
    | changePlan planned rows =>
      have htypes := Engine.changeEvents_type planned
      obtain ⟨hregular, hterms⟩ := rows.terms_appended hs ht (starts_eq_nil.2 fun f hf => by
          rcases htypes f hf with htype | htype <;> rw [htype] <;> rfl) id
        fun r hr fs hgrows hlaid => hgrows.term_of_others fun f hf => by
          obtain ⟨e, he, htype⟩ := hlaid.mem_type hf
          rcases htypes e (List.mem_filter.1 he).1 with h | h <;> rw [htype, h] <;> simp
      exact ⟨hregular, .same (fun _ => rfl) (by rw [hterms, List.map_id])⟩
    | cancel planned rows =>
      obtain ⟨hregular, c, hc, date, rfl, hlive, hdown, hterms⟩ := hwrote.terms_of_cancel hs
      exact ⟨hregular, .cut hc hlive hdown hterms⟩
    | uncancel planned rows =>
      obtain ⟨hregular, c, hc, f, rfl, hend, hahead, hterms⟩ := hwrote.terms_of_uncancel hs
      exact ⟨hregular, .restored hc hend hahead hterms⟩
    | setChargedThrough rows paid =>
      have hevents : t.events = s.events := by simpa [filing] using rows.events
      have hshown (q : SubscriptionRecord) (date : Option Instant) :
          t.shown { q with chargedThrough := date } = s.shown q := by
        rw [Store.shown, Store.shown, hevents]
      refine ⟨⟨ht, fun r hr => ?_⟩, .same (fun _ => rfl) ?_⟩
      · rw [rows.records, List.append_nil] at hr
        obtain ⟨q, hq, rfl⟩ := List.mem_map.1 hr
        obtain ⟨date, hpaid⟩ := paid q
        rw [hpaid, hshown q date]
        exact hs.opens q hq
      · rw [Store.terms, Store.terms, rows.records, List.append_nil, List.map_map]
        refine List.map_congr_left fun q _ => ?_
        obtain ⟨date, hpaid⟩ := paid q
        rw [Function.comp_apply, hpaid, Store.term, hshown q date]
        rfl
    | repair => cases hlife
    | migrate => cases hlife
    | transfer => cases hlife

theorem Run.regular {allowed : Store → Step → Prop} {s t : Store}
    (hlife : ∀ s st, allowed s st → st.call.isLifecycle = true) (h : Run allowed s t)
    (hs : s.Regular) : t.Regular :=
  h.preserves (fun _ _ ha hs => (Step.turned hs (hlife _ _ ha)).1) hs

end Tenure
