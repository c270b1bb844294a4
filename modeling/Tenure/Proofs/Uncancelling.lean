import Tenure.Proofs.Cancelling
import Tenure.Proofs.Coherence

/-!
# What an uncancellation takes back

A subscription that is going to end may have been cancelled many times and for many dates: by
itself, along with its base plan, by a transfer, in a repair. An uncancellation takes effect from
all cancellations that lie at its date or behind it, so from all that are still ahead. None of those
that lie before it had an effect either, since the subscription has not ended by then.

**Theorem (`uncancel_resumes`).** So the subscription has no end any more, and goes wherever its
moves lead, those behind the former end included. The same holds of the add-ons that are uncancelled
with it, and all others stay as they are.

The heart of this is `standingAt_append_uncancels`. An end that is left would be the date of a
cancellation before all the uncancellations. Up to that date they make no difference
(`reached_append_of_lt`), so the subscription would have been cancelled before.
-/

namespace Tenure

/-! ## Histories -/

section Histories

variable {es fs : List Event} {start date : Instant}

/-- Where a history with one start has not ended by a date, uncancellations recorded behind it of
which one lies no later than the date leave no end at all. -/
theorem standingAt_append_uncancels (hids : ((es ++ fs).map (·.id)).Nodup)
    (hrise : (es ++ fs).Pairwise (fun a b => a.ordering < b.ordering))
    (hfs : ∀ f ∈ fs, f.type = .uncancel) (hstarts : starts es = [start])
    (hlive : (reached es date).cancelled = false) {f : Event} (hf : f ∈ fs)
    (hdate : f.effective ≤ date) (category : Category) (t : Instant) :
    ∃ st, standingAt (es ++ fs) category t = some st ∧ st.finish = none ∧
      st.isCancelled = false := by
  have hnew : starts fs = [] := starts_eq_nil.2 fun f hf => by
    rw [hfs f hf]
    rfl
  have hone : starts (es ++ fs) = [start] := by rw [starts_append, hstarts, hnew, List.append_nil]
  obtain ⟨finish, hfinish⟩ := standingAt_of_starts hids hone
  obtain rfl : finish = none := by
    cases hend : finish with
    | none => rfl
    | some day =>
      obtain ⟨st, hst, -, hst_finish, hst_cancelled, -⟩ := hfinish category day
      have hcancelled : st.isCancelled = true := by
        rw [hst_cancelled, hend]
        exact decide_eq_true (Int.le_refl _)
      have hreached : (reached (es ++ fs) day).cancelled = true :=
        (standingAt_isCancelled hst).symm.trans hcancelled
      -- The end is the date of a cancellation, which no uncancellation takes back.
      obtain ⟨u, hlast, htype, -⟩ := exists_cancel_of_reached hreached
      have hday : u.effective = day := by
        have hsame := standingAt_finish_of_cancelled hst hcancelled
        rw [hst_finish, hend, hlast] at hsame
        exact (Option.some.inj hsame).symm
      obtain ⟨_, c, hc, hmade⟩ := exists_transition?_of_mem (List.mem_of_getLast? hlast)
      obtain ⟨hctype, hcdate, -⟩ := Cursor.transition?_eq_some hmade
      have hceffective : c ∈ effectiveEvents (es ++ fs) := (List.mem_filter.1 hc).1
      have hcancel : c.type = .cancel := hctype.symm.trans htype
      have hcmem : c ∈ es := by
        refine (List.mem_append.1 (mem_effectiveEvents.1 hceffective).1).resolve_right
          fun hmem => ?_
        have huncancel := hfs c hmem
        rw [hcancel] at huncancel
        cases huncancel
      have hahead : ∀ f ∈ fs, day < f.effective := by
        intro f hf
        have hlt := (List.pairwise_append.1 hrise).2.2 c hcmem f hf
        have hkept := not_isSupersededBy hceffective (List.mem_append_right _ hf)
        rw [← hday, hcdate]
        exact Int.not_le.1 fun hle =>
          hkept (Event.isSupersededBy_iff.2 ⟨hlt, .inr ⟨hcancel, hfs f hf, hle⟩⟩)
      -- So the history was cancelled by then as it was.
      rw [reached_append_of_lt hids hahead] at hreached
      have hstays := reached_cancelled_mono (nodup_front hids) hstarts hreached
        (Int.le_trans (Int.le_of_lt (hahead f hf)) hdate)
      rw [hlive] at hstays
      cases hstays
  obtain ⟨st, hst, -, hst_finish, hst_cancelled, -⟩ := hfinish category t
  exact ⟨st, hst, hst_finish, hst_cancelled⟩

theorem courseAt_append_uncancels (hfs : ∀ f ∈ fs, f.type = .uncancel) (t : Instant) :
    courseAt (es ++ fs) t = courseAt es t := by
  have hnone : fs.filter (·.isMove) = [] := List.filter_eq_nil_iff.2 fun f hf => by
    simp [Event.isMove, hfs f hf, EventType.startsSubscription]
  rw [courseAt, courseAt, List.filter_append, hnone, List.append_nil]

end Histories

/-! ## Subscriptions -/

theorem Store.courseAt_visible {s : Store} (hs : s.Tidy) (r : SubscriptionRecord) (t : Instant) :
    courseAt (s.visible r).events t = courseAt (s.shown r) t := by
  rw [courseAt, courseAt, effectiveEvents_moves (visible_ids hs r),
    effectiveEvents_moves (shown_ids hs r), effectiveEvents_visible hs]

/-- The subscription has no end, and stands where `sub` would without its cancellations. -/
structure Subscription.Resumes (freed sub : Subscription) : Prop where
  endless : ∀ t, ∃ st, freed.standingAt t = some st ∧ st.finish = none ∧ st.isCancelled = false
  target : ∀ t, freed.targetAt? t = sub.uncancelled.targetAt? t

section Growing

variable {s t : Store} {r : SubscriptionRecord} {fs : List Event} {date : Instant} {st : Standing}

theorem Store.Grows.resumes (h : s.Grows t r fs) (hs : s.Reachable) (ht : t.Tidy)
    (hr : r ∈ s.records) (hfs : ∀ f ∈ fs, f.type = .uncancel)
    (hst : (s.visible r).standingAt date = some st) (hlive : st.isCancelled = false) {f : Event}
    (hf : f ∈ fs) (hdate : f.effective ≤ date) : (t.visible r).Resumes (s.visible r) := by
  have htidy := hs.sound.tidy
  have hreached : (reached (s.shown r) date).cancelled = false := by
    rw [← Store.reached_visible htidy]
    exact (standingAt_isCancelled hst).symm.trans hlive
  have hendless := standingAt_append_uncancels h.ids h.rises hfs
    (Store.starts_of_standing htidy (hs.rooted r hr) hst) hreached hf hdate r.category
  rw [← h.shown] at hendless
  constructor
  · intro u
    obtain ⟨st', hst', hrest⟩ := hendless u
    exact ⟨st', (Store.standingAt_visible ht r.category u).trans hst', hrest⟩
  · intro u
    obtain ⟨st', hst', -, hlive'⟩ := hendless u
    rw [standingAt_isCancelled hst'] at hlive'
    rw [Store.targetAt?_visible ht, standingAt_bind_target?, hlive',
      target_reached (Store.shown_ids ht r) hlive', h.shown, courseAt_append_uncancels hfs,
      ← Store.courseAt_visible htidy,
      Subscription.targetAt?_uncancelled (Store.visible_ids htidy r)]
    rfl

theorem Rows.resumes {stamp : Stamp} {next : Nat → EventId} {ids : List SubscriptionId}
    (h : Rows s t id [] (s.atVersions (stamp.events next (ids.map (⟨·, date, .uncancel⟩)))))
    (hdown : date.RoundsDown) (hs : s.Reachable) (ht : t.Tidy) (hr : r ∈ s.records)
    (hid : r.id ∈ ids)
    (hst : (s.visible r).standingAt date = some st) (hfuture : st.isFutureCancelled = true) :
    (t.visible r).Resumes (s.visible r) := by
  obtain ⟨fs, hgrows, hdrafts⟩ := h.grows_drafts hs.sound.tidy ht hr
  have hfs : ∀ f ∈ fs, f.type = .uncancel := by
    intro f hf
    obtain ⟨d, hd, hof⟩ := exists_right_of_forall₂ hdrafts hf
    obtain ⟨_, -, rfl⟩ := List.mem_map.1 (List.mem_filter.1 hd).1
    exact congrArg Payload.type hof.payload
  obtain ⟨f, hf, hof⟩ := exists_left_of_forall₂ hdrafts
    (List.mem_filter.2 ⟨List.mem_map_of_mem hid, beq_self_eq_true r.id⟩)
  refine hgrows.resumes hs ht hr hfs hst (standingAt_apart hst hfuture) hf ?_
  rw [hof.effective]
  exact hdown

end Growing

/-! ## Stores -/

theorem Store.map_filing_drafts (s : Store) (stamp : Stamp) (n : Nat) (next : Nat → EventId)
    (ds : List Draft) :
    (filing n (s.atVersions (stamp.events next ds))).map (fun f => (f.subscription, f.payload)) =
      ds.map fun d => (d.subscription, d.payload) := by
  induction ds generalizing n next with
  | nil => rfl
  | cons d ds ih => exact congrArg ((d.subscription, d.payload) :: ·) (ih (n + 1) _)

theorem Engine.mem_endingWith_iff {subs : List Subscription} {date : Instant}
    {finish : Option Instant} {a : Subscription} :
    a ∈ endingWith subs date finish ↔ a ∈ subs ∧ a.category = .addOn ∧
      ∃ st, a.standingAt date = some st ∧ st.isFutureCancelled = true ∧ st.finish = finish := by
  simp [endingWith, Option.any_eq_true]

/-- What uncancelling `sub` leaves of a store, with `new` recorded. -/
structure Store.Frees (s t : Store) (sub : Subscription) (new : List Event) : Prop where
  self : ∃ freed, t.subscription? sub.id = some freed ∧ freed.Resumes sub
  recorded : t.events = s.events ++ new ∧ ∀ f ∈ new, f.type = .uncancel
  addOns : ∀ f ∈ new, f.subscription ≠ sub.id → ∃ a freed, s.subscription? f.subscription = some a ∧
    t.subscription? f.subscription = some freed ∧ a.HangsOff sub ∧ freed.Resumes a
  others : ∀ i, (∀ f ∈ new, f.subscription ≠ i) → t.subscription? i = s.subscription? i

section Stores

variable {s t : Store} {q : SubscriptionRecord} {date : Instant} {st : Standing}

theorem Engine.hangsOff_of_mem_endingWith {i : SubscriptionId}
    (h : i ∈ (if (s.visible q).category == .base then
      endingWith (s.subscriptionsOf q.bundle) date st.finish else []).map (·.id)) :
    ∃ r ∈ s.records, r.id = i ∧ (s.visible r).HangsOff (s.visible q) ∧
      ∃ st', (s.visible r).standingAt date = some st' ∧ st'.isFutureCancelled = true := by
  obtain ⟨a, ha, rfl⟩ := List.mem_map.1 h
  split at ha
  next hbase =>
    obtain ⟨hmem, haddOn, st', hst', hfuture, -⟩ := mem_endingWith_iff.1 ha
    obtain ⟨r, hr, hbundle, rfl⟩ := Store.mem_subscriptionsOf.1 hmem
    exact ⟨r, hr, rfl, ⟨beq_iff_eq.1 hbase, hbundle, haddOn⟩, st', hst', hfuture⟩
  · cases ha

/-- The uncancellations of a subscription that is going to end, and of add-ons that hang off it and
are going to end as well. -/
theorem Rows.frees {stamp : Stamp} {next : Nat → EventId} {ids : List SubscriptionId}
    (h : Rows s t id [] (s.atVersions (stamp.events next
      ((q.id :: ids).map (⟨·, date, .uncancel⟩)))))
    (hdown : date.RoundsDown) (hs : s.Reachable) (ht : t.Tidy) (hq : q ∈ s.records)
    (hst : (s.visible q).standingAt date = some st) (hfuture : st.isFutureCancelled = true)
    (hbeside : ∀ i ∈ ids, ∃ r ∈ s.records, r.id = i ∧ (s.visible r).HangsOff (s.visible q) ∧
      ∃ st', (s.visible r).standingAt date = some st' ∧ st'.isFutureCancelled = true) :
    ∃ new, s.Frees t (s.visible q) new := by
  obtain ⟨new, hevents, hnew⟩ : ∃ new, t.events = s.events ++ new ∧
      new.map (fun f => (f.subscription, f.payload)) =
        (q.id :: ids).map fun i => (i, .uncancel) :=
    ⟨_, h.events, by rw [Store.map_filing_drafts, List.map_map]; rfl⟩
  have hrecorded (i : SubscriptionId) (payload : Payload) :
      (∃ f ∈ new, f.subscription = i ∧ f.payload = payload) ↔
        i ∈ q.id :: ids ∧ payload = .uncancel := by
    have hmem : (i, payload) ∈ new.map (fun f => (f.subscription, f.payload)) ↔
        (i, payload) ∈ (q.id :: ids).map fun i => (i, Payload.uncancel) := by rw [hnew]
    simpa [eq_comm, or_and_right] using hmem
  have hresumes := h.resumes hdown hs ht hq List.mem_cons_self hst hfuture
  refine ⟨new, ⟨_, h.subscription?_visible ht hq, hresumes⟩, ⟨hevents, fun f hf => ?_⟩,
    fun f hf hne => ?_, fun i hnone => ?_⟩
  · exact congrArg Payload.type ((hrecorded _ _).1 ⟨f, hf, rfl, rfl⟩).2
  · have hown := ((hrecorded _ _).1 ⟨f, hf, rfl, rfl⟩).1
    obtain ⟨r, hr, hid, hoff, st', hst', hfuture'⟩ :=
      hbeside _ ((List.mem_cons.1 hown).resolve_left hne)
    rw [← hid] at hown ⊢
    exact ⟨s.visible r, _, Store.subscription?_of_mem hs.sound.tidy hr,
      h.subscription?_visible ht hr, hoff, h.resumes hdown hs ht hr hown hst' hfuture'⟩
  · refine h.subscription?_eq hs.sound.tidy fun e he hown => ?_
    obtain ⟨d, hd, _, -, rfl⟩ := Stamp.mem_events he
    obtain ⟨j, hj, rfl⟩ := List.mem_map.1 hd
    obtain ⟨f, hf, hsame, -⟩ := (hrecorded j .uncancel).2 ⟨hj, rfl⟩
    exact hnone f hf (hsame.trans hown)

end Stores

/-- **What an uncancellation takes back.** The subscription and the add-ons that uncancellations are
recorded of have no end any more, and stand at all instants where they would if they had never been
cancelled. The others are what they were. It may not be asked for in a leap second. -/
theorem uncancel_resumes {s t : Store} (hs : s.Reachable) {e : Engine} {context : CallContext}
    {now : Instant} {i : SubscriptionId} {freed : Subscription}
    (hleap : (context.requested.getD now).isLeap = false)
    (h : e.uncancel context now i s = (.ok freed, t)) :
    ∃ sub new, s.subscription? i = some sub ∧ t.subscription? i = some freed ∧
      s.Frees t sub new := by
  have hback := Engine.onSubscription_eq_ok hs.sound.unlocked h
  have hrun : Step.run ⟨e, context, now, .uncancel i⟩ s = outcome (.ok freed, t) :=
    congrArg outcome h
  obtain ⟨-, hwrote⟩ := Step.wrote_of_ok hs.sound hrun (by simp)
  have htidy' := (hwrote.sound hs.sound).tidy
  cases hwrote with
  | uncancel planned rows =>
  obtain ⟨sub, st, hsub, rfl, hpending, rfl⟩ := Engine.uncancelEvents_eq_ok planned
  obtain ⟨hst, hfuture⟩ := Option.filter_eq_some_iff.1 hpending
  obtain ⟨q, hq, rfl, rfl⟩ := (Store.subscription?_eq_some hs.sound.tidy).1 hsub
  obtain ⟨new, hfrees⟩ := rows.frees (Instant.roundsDown_of_not_leap hleap) hs htidy' hq hst
    hfuture fun _ => Engine.hangsOff_of_mem_endingWith
  exact ⟨s.visible q, new, hsub, hback, hfrees⟩

namespace Sample

/-- An add-on is cancelled for day 50, and then its base plan for day 20, which is within the
trial. -/
def givenUp : List Step :=
  [step 0 (.createBundle ⟨1⟩ "key"),
    step 0 (.createSubscription ⟨1⟩ ⟨"pistol", .monthly, "DEFAULT"⟩),
    step 0 (.createSubscription ⟨1⟩ ⟨"telescopic-scope", .monthly, "DEFAULT"⟩),
    ⟨engine, { caller with requested := some (day 50) }, day 1, .cancel ⟨2⟩⟩,
    ⟨engine, { caller with requested := some (day 20) }, day 2, .cancel ⟨1⟩⟩]

/-- What uncancelling the base plan on day 3 comes to. -/
def takenUp : Except Error Subscription × Store :=
  engine.uncancel caller (day 3) ⟨1⟩ (after givenUp)

end Sample

/-- Uncancelled, both go on for ever, the base plan in the phase behind its trial. -/
theorem uncancel_resumes_sample :
    ∃ sub freed t new, Sample.takenUp = (.ok freed, t) ∧
      (Sample.after Sample.givenUp).Frees t sub new ∧ new.map (·.subscription) = [⟨1⟩, ⟨2⟩] ∧
      ((Sample.after Sample.givenUp).subscriptionsOf sub.bundle).map (·.finish?) =
        [some (Sample.day 20), some (Sample.day 20)] ∧
      freed.targetAt? (Sample.day 40) =
        some ⟨"pistol-monthly", "pistol-monthly-evergreen", "DEFAULT"⟩ := by
  have hread : ((Sample.after Sample.givenUp).subscription? ⟨1⟩).map
      (fun sub => (sub.id, ((Sample.after Sample.givenUp).subscriptionsOf sub.bundle).map
        (·.finish?), sub.uncancelled.targetAt? (Sample.day 40))) =
      some (⟨1⟩, [some (Sample.day 20), some (Sample.day 20)],
        some ⟨"pistol-monthly", "pistol-monthly-evergreen", "DEFAULT"⟩) := by
    decide +kernel
  have hdone : Sample.takenUp.1.toOption.isSome = true := by decide +kernel
  have hrecorded : (Sample.takenUp.2.events.drop (Sample.after Sample.givenUp).events.length).map
      (·.subscription) = [⟨1⟩, ⟨2⟩] := by decide +kernel
  cases hres : Sample.takenUp with
  | mk res t =>
    rw [hres] at hdone hrecorded
    cases res with
    | error err => cases hdone
    | ok freed =>
      obtain ⟨sub, new, hsub, hback, hfrees⟩ :=
        uncancel_resumes (Sample.reachable_after Sample.givenUp) (by decide) hres
      rw [hsub, Option.map_some, Option.some_inj, Prod.mk.injEq, Prod.mk.injEq] at hread
      obtain ⟨hid, hends, htarget⟩ := hread
      obtain ⟨_, hfound, hresumes⟩ := hfrees.self
      rw [hid, hback] at hfound
      cases hfound
      rw [hfrees.recorded.1, List.drop_left] at hrecorded
      exact ⟨sub, freed, t, new, rfl, hfrees, hrecorded, hends,
        (hresumes.target _).trans htarget⟩

end Tenure
