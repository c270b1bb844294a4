import Tenure.Proofs.TermSteps

/-!
# Uncancelling what was cancelled

A pending cancellation can be withdrawn, and one would like this to leave a bundle as if there had
been none. For the subscription itself it does. An add-on that was cancelled along with its base
plan is found again by its end, which is to be that of the base plan, and then loses all its
cancellations. So it is as before if it had none and had started by then, and it is not

* if it starts behind the end of the base plan: it was ended at its start and stays so;
* if it had an end of its own at that of the base plan or behind it: it goes on for ever.

What cancellations and uncancellations do is to move ends (`Turn`). The moves of a subscription
from phase to phase and plan to plan stay as they are, and they decide with the end what a reader
is told (`Store.Regular.outlook?_eq`).
-/

namespace Tenure

/-! ## Outlooks -/

/-- What is said of a subscription at an instant: the position held, whether it is cancelled, and
its end as far as it is known. -/
structure Outlook where
  target? : Option Target
  isCancelled : Bool
  finish : Option Instant
  deriving DecidableEq

def Subscription.outlook? (sub : Subscription) (t : Instant) : Option Outlook :=
  (sub.standingAt t).map fun st => ⟨st.target?, st.isCancelled, st.finish⟩

namespace Store

variable {s t : Store} {r : SubscriptionRecord}

theorem Regular.outlook?_eq (hs : s.Regular) (hr : r ∈ s.records) (date : Instant) :
    (s.visible r).outlook? date = some
      { target? :=
          if (s.term r).finish.any (· ≤ date) then none else courseAt (s.shown r) date
        isCancelled := (s.term r).finish.any (· ≤ date)
        finish := (s.term r).finish } := by
  obtain ⟨st, hst, -, hfinish, hcancelled, -⟩ := (hs.describes hr).standing date
  rw [Subscription.outlook?, hst, Option.map_some, hfinish, hcancelled]
  rw [Subscription.standingAt, standingAt_visible hs.sound.tidy] at hst
  rw [(hs.opens r hr).target? hst]
  rfl

/-- The subscriptions of the bundle have the same outlooks, at all instants. -/
def SameOutlooks (s t : Store) (b : BundleId) : Prop :=
  ∀ sub ∈ s.subscriptionsOf b, ∀ date,
    (t.subscription? sub.id).bind (·.outlook? date) = sub.outlook? date

/-- The same subscriptions, with the same moves. -/
structure SameMoves (s t : Store) : Prop where
  records : t.records = s.records
  moves : ∀ r ∈ s.records, (t.shown r).filter (·.isMove) = (s.shown r).filter (·.isMove)

theorem SameMoves.refl (s : Store) : s.SameMoves s := ⟨rfl, fun _ _ => rfl⟩

theorem SameMoves.trans {u : Store} (h : s.SameMoves t) (h' : t.SameMoves u) : s.SameMoves u :=
  ⟨h'.records.trans h.records,
    fun r hr => (h'.moves r (h.records ▸ hr)).trans (h.moves r hr)⟩

theorem SameMoves.outlook?_iff (h : s.SameMoves t) (hs : s.Regular) (ht : t.Regular)
    (hr : r ∈ s.records) : (∀ date, (t.visible r).outlook? date = (s.visible r).outlook? date) ↔
      (t.term r).finish = (s.term r).finish := by
  have hcourse (date : Instant) : courseAt (t.shown r) date = courseAt (s.shown r) date := by
    rw [courseAt, courseAt, h.moves r hr]
  constructor
  · intro hsame
    have hlast := hsame .last
    rw [ht.outlook?_eq (h.records ▸ hr), hs.outlook?_eq hr, Option.some_inj] at hlast
    exact congrArg Outlook.finish hlast
  · intro hsame date
    rw [ht.outlook?_eq (h.records ▸ hr), hs.outlook?_eq hr, hcourse, hsame]

theorem sameMoves_of_rows {es : List Event} (h : Rows s t id [] (s.atVersions es)) (hs : s.Tidy)
    (hes : ∀ e ∈ es, e.type = .cancel ∨ e.type = .uncancel) : s.SameMoves t := by
  have hrecords := h.records_eq
  refine ⟨hrecords, fun r hr => ?_⟩
  obtain ⟨-, fs, hshown, hlaid⟩ := h.appended_cases hs (hrecords ▸ hr)
  have hnone : fs.filter (·.isMove) = [] := by
    refine List.filter_eq_nil_iff.2 fun f hf hmove => ?_
    obtain ⟨e, he, htype⟩ := hlaid.mem_type hf
    rcases hes e (List.mem_filter.1 he).1 with h | h <;>
      simp [Event.isMove, htype, h, EventType.startsSubscription] at hmove
  rw [hshown, List.filter_append, hnone, List.append_nil]

end Store

theorem Step.sameMoves {s : Store} (hs : s.Sound) {st : Step} {i : SubscriptionId}
    (hcall : st.call = .cancel i ∨ st.call = .uncancel i) : s.SameMoves (st.after s) := by
  rcases st.wrote hs with hsame | hwrote
  · rw [hsame]
    exact .refl s
  · generalize st.after s = t at hwrote
    cases hwrote with
    | cancel planned rows =>
      exact Store.sameMoves_of_rows rows hs.tidy fun f hf =>
        .inl (Engine.cancelEvents_type planned f hf)
    | uncancel planned rows =>
      exact Store.sameMoves_of_rows rows hs.tidy fun f hf =>
        .inr (Engine.uncancelEvents_type planned f hf)
    | _ => rcases hcall with hcall | hcall <;> cases hcall

/-! ## Ends -/

/-- An add-on that runs like this is left as it was when its base plan is cancelled for the date and
uncancelled: it has started by then and has no end, or its end lies in front of the date, or it
starts behind the date and is cancelled at its very start. -/
def Span.Survives (p : Span) (date : Instant) : Prop :=
  p.finish = none ∧ p.start ≤ date ∨ (∃ f ∈ p.finish, f < date) ∨
    p.finish = some p.start ∧ date < p.start

instance (p : Span) (date : Instant) : Decidable (p.Survives date) :=
  inferInstanceAs (Decidable (_ ∨ _ ∨ _))

namespace Term

variable {c x : Term} {date day : Instant}

section AddOns

variable (hne : x.id ≠ c.id) (hbase : c.category = .base) (hbundle : x.bundle = c.bundle)
  (haddOn : x.category = .addOn)

include hne hbase hbundle haddOn

theorem finish_cut_addOn (hx : x.InMillis) (hends : ∀ f ∈ x.finish, x.start ≤ f)
    (hdate : date.RoundsDown) : (c.cut date x).finish =
      if x.finish.any (· ≤ date.floorMillis) then x.finish
      else some (Instant.later date.floorMillis x.start) := by
  have hended : x.finish.any (· ≤ date.floorMillis) = x.finish.any (· ≤ date) := by
    cases hfinish : x.finish with
    | none => rfl
    | some f =>
      have hf := hx.finish f hfinish
      rw [Option.any_some, Option.any_some, decide_eq_decide]
      constructor
      · exact fun h => Int.le_trans h hdate
      · exact fun h => hf ▸ Instant.floorMillis_mono (Instant.roundsDown_of_floorMillis hf) h
  rw [hended]
  by_cases h : x.finish.any (· ≤ date) = true
  · rw [if_pos h, cut_of_none (by rw [cutDate?, if_neg hne, if_neg fun hcut => hcut.2.2.2 h])]
  · rw [if_neg h, cut, cutDate?, if_neg hne, if_pos ⟨hbase, hbundle, haddOn, h⟩, Option.map_some,
      Instant.floorMillis_later hdate hx.start]
    cases hfinish : x.finish with
    | none => rfl
    | some f =>
      rw [← hended, hfinish, Option.any_some, decide_eq_true_eq] at h
      have hle : Instant.later date.floorMillis x.start ≤ f :=
        Instant.later_le_iff.2 ⟨Int.le_of_lt (Int.not_le.1 h), hends f hfinish⟩
      rw [Instant.earlier, if_pos hle]

theorem finish_restore_addOn (hlive : c.finish = none) (hday : day ≤ date.floorMillis) :
    ((c.cut date c).restore day (c.cut date x)).finish =
      if (c.cut date x).finish = some date.floorMillis then none else (c.cut date x).finish := by
  have hrecalls : (c.cut date c).Recalls (c.cut date x) ↔
      (c.cut date x).finish = some date.floorMillis := by
    rw [← cut_self hlive]
    exact ⟨fun h => (h.resolve_left hne).2.2.2, fun h => .inr ⟨hbase, hbundle, haddOn, h⟩⟩
  rw [restore]
  split
  next h =>
    have hnot : ¬ date.floorMillis < day := Int.not_lt.2 hday
    rw [if_pos (hrecalls.1 h), hrecalls.1 h]
    simp [Option.filter, hnot]
  next h => rw [if_neg fun hsame => h (hrecalls.2 hsame)]

/-- An add-on has the end that it had if it survives. -/
theorem finish_addOn_iff (hlive : c.finish = none) (hx : x.InMillis)
    (hends : ∀ f ∈ x.finish, x.start ≤ f) (hdate : date.RoundsDown)
    (hday : day ≤ date.floorMillis) :
    ((c.cut date c).restore day (c.cut date x)).finish = x.finish ↔
      x.Survives date.floorMillis := by
  rw [finish_restore_addOn hne hbase hbundle haddOn hlive hday,
    finish_cut_addOn hne hbase hbundle haddOn hx hends hdate]
  generalize date.floorMillis = date
  unfold Span.Survives
  cases hfinish : x.finish with
  | none =>
    by_cases hbegun : x.start ≤ date
    · simp [Instant.later_of_le hbegun, hbegun]
    · have hlt := Int.not_le.1 hbegun
      have hne : x.start ≠ date := fun h => hbegun (h ▸ Int.le_refl _)
      simp [Instant.later_of_lt hlt, hne, hbegun]
  | some f =>
    rcases Int.lt_trichotomy f.tick date.tick with hlt | hsame | hlate
    · have hended : f ≤ date := Int.le_of_lt hlt
      have hne : f ≠ date := fun h => Int.lt_irrefl _ (h ▸ hlt)
      have hlt : f < date := hlt
      simp [hended, hne, hlt]
    · obtain rfl : f = date := Instant.ext hsame
      have hself : f ≤ f := Int.le_refl _
      have hirrefl : ¬ f < f := Int.lt_irrefl _
      have hnot : f = x.start → ¬ f < x.start := fun h => h ▸ hirrefl
      simpa [hself, hirrefl] using hnot
    · have hended : ¬ f ≤ date := Int.not_le.2 hlate
      have hearly : ¬ f < date := Int.not_lt.2 (Int.le_of_lt hlate)
      by_cases hbegun : x.start ≤ date
      · have hnot : ¬ date < x.start := Int.not_lt.2 hbegun
        simp [hended, Instant.later_of_le hbegun, hearly, hnot]
      · have hlt : date < x.start := Int.not_le.1 hbegun
        have hne : x.start ≠ date := fun h => hbegun (h ▸ Int.le_refl _)
        simpa [hended, Instant.later_of_lt hlt, hne, hearly, hlt] using eq_comm

end AddOns

/-- A term that is cut and restored has the end that it had, unless it is an add-on that does not
survive this. -/
theorem finish_restore_cut (hself : x.id = c.id → x = c) (hlive : c.finish = none)
    (hx : x.InMillis) (hends : ∀ f ∈ x.finish, x.start ≤ f) (hdate : date.RoundsDown)
    (hday : day ≤ date.floorMillis) :
    ((c.cut date c).restore day (c.cut date x)).finish = x.finish ↔ (c.category = .base →
      x.bundle = c.bundle → x.category = .addOn → x.Survives date.floorMillis) := by
  by_cases hne : x.id = c.id
  · obtain rfl := hself hne
    have hnot : ¬ date.floorMillis < day := Int.not_lt.2 hday
    have hopen : ((x.cut date x).restore day (x.cut date x)).finish = x.finish := by
      rw [restore, if_pos (.inl rfl), cut_self hlive, hlive]
      simp [Option.filter, hnot]
    refine iff_of_true hopen fun hbase _ haddOn => ?_
    rw [hbase] at haddOn
    cases haddOn
  · by_cases hcascade : c.category = .base ∧ x.bundle = c.bundle ∧ x.category = .addOn
    · obtain ⟨hbase, hbundle, haddOn⟩ := hcascade
      rw [finish_addOn_iff hne hbase hbundle haddOn hlive hx hends hdate hday]
      exact ⟨fun h _ _ _ => h, fun h => h hbase hbundle haddOn⟩
    · have hcut : c.cut date x = x := cut_of_none (by
        rw [cutDate?, if_neg hne, if_neg fun h => hcascade ⟨h.1, h.2.1, h.2.2.1⟩])
      have hrestore : (c.cut date c).restore day x = x := restore_of_not_recalls fun h =>
        hcascade ⟨(h.resolve_left hne).1, (h.resolve_left hne).2.1, (h.resolve_left hne).2.2.1⟩
      rw [hcut, hrestore]
      exact iff_of_true rfl fun hbase hbundle haddOn => (hcascade ⟨hbase, hbundle, haddOn⟩).elim

end Term

/-! ## The two steps together -/

theorem Store.term_of_terms {s t : Store} (hrecords : t.records = s.records)
    {change : Term → Term} (h : t.terms = s.terms.map change) {r : SubscriptionRecord}
    (hr : r ∈ s.records) : t.term r = change (s.term r) := by
  rw [Store.terms, Store.terms, hrecords, List.map_map] at h
  exact List.map_inj_left.1 h r hr

def Subscription.Survives (sub : Subscription) (date : Instant) : Prop :=
  Span.Survives ⟨sub.start, sub.finish?⟩ date

instance (sub : Subscription) (date : Instant) : Decidable (sub.Survives date) :=
  inferInstanceAs (Decidable (Span.Survives _ _))

theorem Term.Describes.survives_iff {x : Term} {sub : Subscription} (h : x.Describes sub)
    (date : Instant) : sub.Survives date ↔ x.Survives date := by
  rw [Subscription.Survives, h.start, h.finish?]

/-- The terms after a cancellation and an uncancellation of the same subscription. -/
theorem Step.cut_and_restored {s : Store} (hs : s.Regular) {c u : Step} {i : SubscriptionId}
    (hcancel : c.call = .cancel i) (huncancel : u.call = .uncancel i) (hdone : c.Succeeds s)
    (hundone : u.Succeeds (c.after s)) (hoff : c.OffLeaps) (hoff' : u.OffLeaps) :
    (c.after s).Regular ∧ (u.after (c.after s)).Regular ∧ ∃ x ∈ s.terms, ∃ date day, x.id = i ∧
      x.finish = none ∧ date.RoundsDown ∧ day ≤ date.floorMillis ∧
        (c.after s).terms = s.terms.map (x.cut date) ∧
          (u.after (c.after s)).terms =
            s.terms.map fun y => (x.cut date x).restore day (x.cut date y) := by
  obtain ⟨hcut, hturn⟩ := c.turned hs (hcancel ▸ rfl)
  obtain ⟨hrestored, hturn'⟩ := u.turned hcut (huncancel ▸ rfl)
  obtain ⟨x, hx, date, hid, hlive, hdown, hterms⟩ := hturn.of_cancel hdone hcancel
  obtain ⟨y, hy, f, hid', hend, hahead, hterms'⟩ := hturn'.of_uncancel hundone huncancel
  have hmem : x.cut date x ∈ (c.after s).terms := hterms ▸ List.mem_map_of_mem hx
  obtain rfl : y = x.cut date x := hcut.unique hy hmem (hid'.trans hid.symm)
  rw [Term.cut_self hlive, Option.some_inj] at hend
  have hday : (u.context.requested.getD u.now).floorMillis ≤ date.floorMillis :=
    Int.le_trans hoff'.asked (Int.le_of_lt (hend ▸ hahead))
  refine ⟨hcut, hrestored, x, hx, date, _, hid, hlive, hdown hoff.asked, hday, hterms, ?_⟩
  rw [hterms', hterms, List.map_map]
  rfl

/-- **Undoing a cancellation.** Where a subscription is cancelled and then uncancelled, all outlooks
of the bundle are what they were if and only if the subscription is no base plan, or all add-ons of
the bundle survive the end that it had. Neither is asked for in a leap second. -/
theorem uncancel_undoes_cancel_iff {s : Store}
    (h : Run (fun _ st => st.call.isLifecycle = true) {} s) {c u : Step} {i : SubscriptionId}
    (hcancel : c.call = .cancel i) (huncancel : u.call = .uncancel i) (hdone : c.Succeeds s)
    (hundone : u.Succeeds (c.after s)) (hoff : c.OffLeaps) (hoff' : u.OffLeaps) :
    ∃ sub ended date, s.subscription? i = some sub ∧ (c.after s).subscription? i = some ended ∧
      ended.finish? = some date ∧
        (s.SameOutlooks (u.after (c.after s)) sub.bundle ↔
          (sub.category = .base → ∀ addOn ∈ s.subscriptionsOf sub.bundle,
            addOn.category = .addOn → addOn.Survives date)) := by
  have hs : s.Regular := h.regular (fun _ _ ha => ha) Store.regular_empty
  obtain ⟨hcut, hrestored, x, hx, date, day, rfl, hlive, hdate, hday, hterms, hterms'⟩ :=
    Step.cut_and_restored hs hcancel huncancel hdone hundone hoff hoff'
  have hmoves : s.SameMoves (u.after (c.after s)) :=
    (Step.sameMoves hs.sound (.inl hcancel)).trans (Step.sameMoves hcut.sound (.inr huncancel))
  obtain ⟨sub, -, hsub, hdescribes⟩ := hs.exists_subscription hx
  obtain ⟨ended, -, hended, hends⟩ :=
    hcut.exists_subscription (hterms ▸ List.mem_map_of_mem hx : x.cut date x ∈ (c.after s).terms)
  refine ⟨sub, ended, date.floorMillis, hsub, hended,
    hends.finish?.trans (Term.cut_self hlive), ?_⟩
  generalize u.after (c.after s) = t at hrestored hterms' hmoves
  have hone : ∀ r ∈ s.records, (∀ date', (t.subscription? r.id).bind (·.outlook? date') =
      (s.visible r).outlook? date') ↔ (x.category = .base → r.bundle = x.bundle →
        r.category = .addOn → (s.visible r).Survives date.floorMillis) := by
    intro r hr
    have hread : t.subscription? r.id = some (t.visible r) :=
      (Store.subscription?_eq_some hrestored.sound.tidy).2 ⟨r, hmoves.records ▸ hr, rfl, rfl⟩
    rw [hread, (hs.describes hr).survives_iff]
    refine (hmoves.outlook?_iff hs hrestored hr).trans ?_
    rw [Store.term_of_terms hmoves.records hterms' hr]
    have hrt : s.term r ∈ s.terms := Store.mem_terms.2 ⟨r, hr, rfl⟩
    exact Term.finish_restore_cut (hs.unique hrt hx) hlive (hs.inMillis hrt)
      (hs.start_le_finish hrt) hdate hday
  rw [hdescribes.bundle, hdescribes.category]
  constructor
  · intro hall hbase addOn haddOn hcategory
    obtain ⟨r, hr, hbundle, rfl⟩ := Store.mem_subscriptionsOf.1 haddOn
    exact (hone r hr).1 (hall _ haddOn) hbase hbundle hcategory
  · intro hall other hother
    obtain ⟨r, hr, hbundle, rfl⟩ := Store.mem_subscriptionsOf.1 hother
    exact (hone r hr).2 fun hbase _ hcategory => hall hbase _ hother hcategory

namespace Sample

/-- A base plan from day 1 on and an add-on from some other day on. -/
def withAddOn (n : Nat) : List Step :=
  [step 0 (.createBundle ⟨1⟩ "key"),
    step 1 (.createSubscription ⟨1⟩ ⟨"assault-rifle", .monthly, "DEFAULT"⟩),
    step n (.createSubscription ⟨1⟩ ⟨"telescopic-scope", .monthly, "DEFAULT"⟩)]

theorem run_withAddOn (n : Nat) :
    Run (fun _ st => st.call.isLifecycle = true) {} (after (withAddOn n)) :=
  run_after (by simp [withAddOn, step, Call.isLifecycle])

/-- The base plan is cancelled for day 20. -/
def cancelled : Step :=
  ⟨engine, { caller with requested := some (day 20) }, day 6, .cancel ⟨1⟩⟩

/-- It is uncancelled on the next day. -/
def uncancelled : Step := step 7 (.uncancel ⟨1⟩)

/-- The store before, with an add-on from day `n` on, and the store behind both steps. -/
def before (n : Nat) : Store := after (withAddOn n)
def behind (n : Nat) : Store := uncancelled.after (cancelled.after (before n))

end Sample

/-- The steps undo each other for an add-on that starts on day 5, and do not for one that starts on
day 30. -/
theorem uncancel_undoes_cancel_iff_sample :
    (Sample.before 5).SameOutlooks (Sample.behind 5) ⟨1⟩ ∧
      ¬ (Sample.before 30).SameOutlooks (Sample.behind 30) ⟨1⟩ := by
  have hread : ∀ n ∈ [5, 30],
      (Sample.cancelled.run (Sample.before n)).1 = .ok () ∧
      (Sample.uncancelled.run (Sample.cancelled.after (Sample.before n))).1 = .ok () ∧
      ((Sample.before n).subscription? ⟨1⟩).map (fun sub => (sub.bundle, sub.category)) =
        some (⟨1⟩, .base) ∧
      ((Sample.cancelled.after (Sample.before n)).subscription? ⟨1⟩).bind (·.finish?) =
        some (Sample.day 20) := by
    decide +kernel
  have hiff : ∀ n ∈ [5, 30], (Sample.before n).SameOutlooks (Sample.behind n) ⟨1⟩ ↔
      ∀ addOn ∈ (Sample.before n).subscriptionsOf ⟨1⟩,
        addOn.category = .addOn → addOn.Survives (Sample.day 20) := by
    intro n hn
    obtain ⟨hdone, hundone, hsub, hended⟩ := hread n hn
    obtain ⟨sub, ended, date, hsub', hended', hdate, hiff⟩ :=
      uncancel_undoes_cancel_iff (Sample.run_withAddOn n) rfl rfl hdone hundone (by decide)
        (by decide)
    have hsub' : (Sample.before n).subscription? ⟨1⟩ = some sub := hsub'
    have hended' : (Sample.cancelled.after (Sample.before n)).subscription? ⟨1⟩ = some ended :=
      hended'
    rw [hsub', Option.map_some, Option.some_inj, Prod.mk.injEq] at hsub
    rw [hended', Option.bind_some, hdate, Option.some_inj] at hended
    rw [hsub.1, hsub.2, hended] at hiff
    exact hiff.trans ⟨fun h => h rfl, fun h _ => h⟩
  rw [hiff 5 (by simp), hiff 30 (by simp)]
  decide +kernel

end Tenure
