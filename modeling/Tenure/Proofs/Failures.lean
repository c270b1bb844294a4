import Tenure.Proofs.StorageChains

/-!
# Failures leave all or nothing

Every step is carried out by a chain of calls of storage (`Step.chain`), and each of their
statements may fail.

**Theorem (`failures_leave_all_or_nothing`).** A step that fails leaves everything but the locks as
it was; or it was carried out, and what failed was giving the lock back or reading the outcome. Of
the locks that others hold, it drops none but one on its bundle that had expired, and its own it
keeps only if giving it back failed. A step in which nothing goes wrong comes to what the operation
is stated to come to.

This holds in every store in which others hold locks, whatever else it holds. The two exceptions
are there, and the latter even where nothing goes wrong: a date in a leap second at the end of the
calendar is stored, but does not read back (`Sample.failures_leave_traces`).
-/

namespace Tenure

theorem Store.subscription?_congr {s t : Store} {i : SubscriptionId} {sub : Subscription}
    (hrecords : t.records = s.records) (h : s.subscription? i = some sub) :
    ∃ sub', t.subscription? i = some sub' := by
  obtain ⟨r, hr, -⟩ := Option.map_eq_some_iff.1 h
  have hr' : t.record? i = some r := by rw [Store.record?, hrecords]; exact hr
  exact ⟨t.visible r, by rw [Store.subscription?, hr', Option.map_some]⟩

theorem Engine.timeline_eq_ok {s : Store} {i : BundleId} {b : Bundle}
    (h : s.bundle? i = some b) :
    Engine.timeline s i = .ok (.ofBundle b (s.subscriptionsOf i)) := by
  rw [Engine.timeline, Engine.bundle, h]
  rfl

namespace Step

variable {e : Engine} {context : CallContext} {now : Instant} {s : Store} {faults : Faults}

/-- The bundle whose lock a step asks for. -/
def target? (st : Step) (s : Store) : Option BundleId :=
  match st.call with
  | .createBundle .. | .migrate _ => none
  | .createSubscription bundle _ | .repair bundle .. => some bundle
  | .changePlan id _ | .cancel id | .uncancel id | .setChargedThrough id _ =>
    (s.subscription? id).map (·.bundle)
  | .transfer request => (s.bundleByKey? request.source request.key).map (·.id)

/-- The step is a repair, and no dry run. -/
def Commits (st : Step) : Prop := ∃ bundle repair, st.call = .repair bundle repair false

open Sql in
/-- A write, whatever is told of it. -/
theorem store_carries {β : Type} {report : StoreError → Error} {c : Sql StoreError Unit}
    {f : Store → Except StoreError Store} (hc : Atomic c (noValue f)) (b : β) :
    Carries s (reporting report c)
      (((f s).mapError report >>= fun t => pure (b, t) : Except Error (β × Store)).map (·.2)) := by
  have h := (atomic_reporting report hc).saves (s := s)
  convert h using 1
  simp only [noValue]
  cases f s <;> rfl

open Sql in
theorem createBundle_accounted {account : AccountId} {key : String} :
    Accounted e none False faults s (outcome (e.createBundle context now account key s))
      (staged ⟨e, context, now, .createBundle account key⟩ faults s) := by
  refine unlocked_accounted (x := { saved := s }) rfl (fun u b v h => ?_) fun s =>
    .read_bind (atomic_look _ fun s hs => Store.readsBack_find hs _) (fun err herr => ?_)
      fun b hb => ?_
  · split at h
    · cases h
    · simp only at h
      split at h <;> cases h
      next hb => exact (Store.insertBundle_aside hb).heeds
  · split at herr <;> cases herr
    next hused => simp only [if_pos hused]; rfl
  · split at hb <;> cases hb
    next hfree =>
      have h := (atomic_reporting (·.toKeyInUse account) (atomic_createBundle
        ⟨(e.supply s).bundle 0, key, account, context.requested.getD now, now⟩)).saves (s := s)
      simp only [if_neg hfree]
      convert h using 1
      simp only [noValue]
      cases s.createBundle _ <;> rfl

open Sql in
theorem createSubscription_accounted {bundle : BundleId} {spec : PlanSpec}
    (hforeign : ∀ l ∈ s.locks, l.owner ≠ e.owner) :
    Accounted e (some bundle) False faults s
      (outcome (e.createSubscription context now bundle spec s))
      (staged ⟨e, context, now, .createSubscription bundle spec⟩ faults s) := by
  refine holding_accounted (x := { saved := s }) hforeign rfl (fun u b v h => ?_) fun s =>
    .read_bind (atomic_look _ fun s hs => Store.readsBack_find hs _) (fun err herr => ?_)
      fun _ _ => .read_bind (atomic_look _ fun s hs => Store.readsBack_subscriptionsOf hs _)
        (fun err herr => ?_) fun sub hsub => ?_
  · simp only [bind_eq_ok, liftStore_eq_ok] at h
    obtain ⟨_, -, h⟩ := h
    exact (Store.createSubscription_aside h).heeds
  · have hplan : e.newSubscription context now bundle spec s = .error err := by
      unfold Engine.newSubscription
      rw [herr]
      rfl
    rw [hplan]
    rfl
  · rw [herr]
    rfl
  · rw [hsub]
    exact (atomic_reporting .store (atomic_createSubscription sub now)).carries
      fun _ _ _ => confirms_pure

/-! ### What is done to a subscription -/

open Sql in
/-- A write behind which the subscription is read back, which it was there to be read before. -/
theorem write_carries {β : Type} {i : SubscriptionId} {c : Sql StoreError β}
    {f : Store → Except StoreError (β × Store)} (hc : Atomic c f)
    (hback : ∀ a t, f s = .ok (a, t) → ∃ sub, t.subscription? i = some sub) :
    Carries s (do
      let _ ← reporting .store c
      readBack (·.subscription? i) (Engine.subscription · i))
      ((do
        let s ← (do
          let (_, s) ← f s
          return s)
        return (← Engine.subscription s i, s) :
          Except Error (Subscription × Store)).map (·.2)) := by
  have h := (atomic_reporting .store hc).carries (s := s)
    (k := fun _ => readBack (·.subscription? i) (Engine.subscription · i)) fun a t ht => by
      obtain ⟨sub, hsub⟩ := hback a t (mapError_eq_ok.1 ht)
      exact confirms_readBack (fun ht => Store.readsBack_subscription? ht i)
        ⟨sub, Engine.subscription_eq_ok.2 hsub⟩
  convert h using 1
  cases hf : f s with
  | error err => rfl
  | ok p =>
    obtain ⟨sub, hsub⟩ := hback p.1 p.2 hf
    show ((Engine.subscription p.2 i >>= _ : Except Error _).map _) = _
    rw [Engine.subscription_eq_ok.2 hsub]
    rfl

open Sql in
/-- For a base plan, its add-ons are read, too. -/
theorem addOns_carries {sub : Subscription} {k : Sql Error Unit} {r : Except Error Store}
    (hk : Carries s k r) :
    Carries s (do
      if sub.category == .base then
        look (·.subscriptionsOf sub.bundle) fun _ => .ok ()
      k) r := by
  split
  · exact .read_bind (atomic_look _ fun s hs => Store.readsBack_subscriptionsOf hs _)
      (fun err herr => by cases herr) fun _ _ => hk
  · exact hk

open Sql in
theorem changePlan_accounted {i : SubscriptionId} {spec : PlanSpec}
    (hforeign : ∀ l ∈ s.locks, l.owner ≠ e.owner) :
    Accounted e ((s.subscription? i).map (·.bundle)) False faults s
      (outcome (e.changePlan context now i spec s))
      (staged ⟨e, context, now, .changePlan i spec⟩ faults s) := by
  refine holdingFor_accounted (x := { saved := s }) hforeign rfl (fun u b v h => ?_) (fun s =>
    .read_bind (atomic_look _ fun s hs => Store.readsBack_subscription? hs _) (fun err herr => ?_)
      fun events hevents => ?_) rfl
  · simp only [bind_eq_ok, liftStore_eq_ok, pure_eq_ok, Prod.mk.injEq] at h
    obtain ⟨w, ⟨_, -, ⟨_, w'⟩, hw, rfl⟩, _, -, -, rfl⟩ := h
    exact (Store.append_aside hw).heeds
  · simp only [herr]
    rfl
  · simp only [hevents]
    refine write_carries (atomic_append i events now) fun stored t ht => ?_
    obtain ⟨sub, -, -, -, -, hsub, -⟩ := Engine.changeEvents_eq_ok hevents
    exact Store.subscription?_congr (by simpa using (Store.append_rows ht).1.records) hsub

open Sql in
theorem cancel_accounted {i : SubscriptionId} (hforeign : ∀ l ∈ s.locks, l.owner ≠ e.owner) :
    Accounted e ((s.subscription? i).map (·.bundle)) False faults s
      (outcome (e.cancel context now i s)) (staged ⟨e, context, now, .cancel i⟩ faults s) := by
  refine holdingFor_accounted (x := { saved := s }) hforeign rfl (fun u b v h => ?_) (fun s =>
    .read_bind (atomic_look _ fun s hs => Store.readsBack_subscription? hs _) (fun err herr => ?_)
      fun found hfound => ?_) rfl
  · simp only [bind_eq_ok, liftStore_eq_ok, pure_eq_ok, Prod.mk.injEq] at h
    obtain ⟨w, ⟨_, -, ⟨_, w'⟩, hw, rfl⟩, _, -, -, rfl⟩ := h
    exact (Store.appendToBundle_aside hw).heeds
  · have hplan : e.cancelEvents context now i s = .error err := by
      unfold Engine.cancelEvents
      rw [herr]
      rfl
    simp only [hplan]
    rfl
  · refine addOns_carries (.read_bind (atomic_plan _) (fun err herr => ?_) fun planned hplan => ?_)
    · simp only [herr]
      rfl
    · obtain ⟨bundle, events⟩ := planned
      simp only [hplan]
      refine write_carries (atomic_appendToBundle bundle events now) fun stored t ht => ?_
      obtain ⟨sub, -, -, hsub, -⟩ := Engine.cancelEvents_eq_ok hplan
      exact Store.subscription?_congr (by simpa using (Store.appendToBundle_rows ht).1.records) hsub

open Sql in
theorem uncancel_accounted {i : SubscriptionId} (hforeign : ∀ l ∈ s.locks, l.owner ≠ e.owner) :
    Accounted e ((s.subscription? i).map (·.bundle)) False faults s
      (outcome (e.uncancel context now i s)) (staged ⟨e, context, now, .uncancel i⟩ faults s) := by
  refine holdingFor_accounted (x := { saved := s }) hforeign rfl (fun u b v h => ?_) (fun s =>
    .read_bind (atomic_look _ fun s hs => Store.readsBack_subscription? hs _) (fun err herr => ?_)
      fun found hfound => addOns_carries (.read_bind (atomic_plan _) (fun err herr => ?_)
        fun planned hplan => ?_)) rfl
  · simp only [bind_eq_ok, liftStore_eq_ok, pure_eq_ok, Prod.mk.injEq] at h
    obtain ⟨w, ⟨_, -, ⟨_, w'⟩, hw, rfl⟩, _, -, -, rfl⟩ := h
    exact (Store.appendToBundle_aside hw).heeds
  · have hplan : e.uncancelEvents context now i s = .error err := by
      unfold Engine.uncancelEvents
      rw [herr]
      rfl
    simp only [hplan]
    rfl
  · simp only [herr]
    rfl
  · obtain ⟨bundle, events⟩ := planned
    simp only [hplan]
    refine write_carries (atomic_appendToBundle bundle events now) fun stored t ht => ?_
    obtain ⟨sub, -, hsub, -⟩ := Engine.uncancelEvents_eq_ok hplan
    exact Store.subscription?_congr (by simpa using (Store.appendToBundle_rows ht).1.records) hsub

open Sql in
theorem setChargedThrough_accounted {i : SubscriptionId} {date : Option Instant}
    (hforeign : ∀ l ∈ s.locks, l.owner ≠ e.owner) :
    Accounted e ((s.subscription? i).map (·.bundle)) False faults s
      (outcome (e.setChargedThrough i date s))
      (staged ⟨e, context, now, .setChargedThrough i date⟩ faults s) := by
  refine holdingFor_accounted (x := { saved := s }) hforeign rfl (fun u b v h => ?_)
    (fun s => ?_) rfl
  · simp only [bind_eq_ok, liftStore_eq_ok, pure_eq_ok, Prod.mk.injEq] at h
    obtain ⟨w, hw, -, rfl⟩ := h
    exact (Store.setChargedThrough_aside hw).heeds
  · exact store_carries (atomic_setChargedThrough i date) ()

/-! ### What is planned -/

open Sql in
/-- A commit behind which the bundle and its subscriptions are read back. -/
theorem commit_carries {commit : RepairCommit} :
    Carries s (do
      let _ ← reporting (Engine.commitError commit.bundle) (commitRepair commit now)
      readBack (·.bundle? commit.bundle) (Engine.bundle · commit.bundle)
      readBack (·.subscriptionsOf commit.bundle) (Engine.timeline · commit.bundle))
      (((s.commitRepair commit now).mapError (Engine.commitError commit.bundle) >>= fun p =>
        Engine.timeline p.2 commit.bundle >>= fun view => pure (view, p.2) :
          Except Error (TimelineView × Store)).map (·.2)) := by
  have hfound {p : RepairRecord × Store} (hp : (s.commitRepair commit now).mapError
      (Engine.commitError commit.bundle) = .ok p) : ∃ b, p.2.bundle? commit.bundle = some b := by
    obtain ⟨-, hfound, -⟩ := Store.commitRepair_records (mapError_eq_ok.1 hp)
    exact Option.isSome_iff_exists.1 (by simpa [Store.bundle?] using hfound)
  have h := (atomic_reporting (Engine.commitError commit.bundle)
    (atomic_commitRepair commit now)).carries (s := s) (k := fun _ => do
      readBack (·.bundle? commit.bundle) (Engine.bundle · commit.bundle)
      readBack (·.subscriptionsOf commit.bundle) (Engine.timeline · commit.bundle))
    fun record t ht => by
      obtain ⟨b, hb⟩ := hfound ht
      exact (confirms_readBack (fun ht => Store.readsBack_find ht _)
        ⟨b, by rw [Engine.bundle, hb]⟩).bind (confirms_readBack
          (fun ht => Store.readsBack_subscriptionsOf ht _) ⟨_, Engine.timeline_eq_ok hb⟩)
  convert h using 1
  cases hcommit : (s.commitRepair commit now).mapError (Engine.commitError commit.bundle) with
  | error err => rfl
  | ok p =>
    obtain ⟨b, hb⟩ := hfound hcommit
    show (Engine.timeline p.2 commit.bundle >>= fun view => pure (view, p.2) :
      Except Error (TimelineView × Store)).map (·.2) = _
    rw [Engine.timeline_eq_ok hb]
    rfl

open Sql in
theorem repair_accounted {bundle : BundleId} {repair : Repair} {dryRun : Bool}
    (hforeign : ∀ l ∈ s.locks, l.owner ≠ e.owner) :
    Accounted e (some bundle) (dryRun = false) faults s
      (outcome (e.repair context now bundle repair dryRun s))
      (staged ⟨e, context, now, .repair bundle repair dryRun⟩ faults s) := by
  refine holding_accounted (x := { saved := s }) hforeign rfl (fun u b v h => ?_) fun s =>
    .read_bind (atomic_look _ fun s hs => Store.readsBack_find hs _) (fun err herr => ?_)
      fun _ _ => .read_bind (atomic_look _ fun s hs => Store.readsBack_subscriptionsOf hs _)
        (fun err herr => ?_) fun made hmade => ?_
  · simp only [bind_eq_ok] at h
    obtain ⟨plan, -, h⟩ := h
    cases dryRun with
    | true =>
      cases h
      exact (Aside.refl u).heeds
    | false =>
      simp only [Bool.false_eq_true, if_false, bind_eq_ok, mapError_eq_ok, pure_eq_ok,
        Prod.mk.injEq] at h
      obtain ⟨⟨_, w⟩, hw, _, -, -, rfl⟩ := h
      exact ⟨(Store.commitRepair_records hw).1, fun hno => (hno rfl).elim⟩
  · split at herr <;> cases herr
    next hnone =>
      have hplan : e.planStored context now bundle repair s =
          .error (.repair (.unknownBundle bundle)) := by
        unfold Engine.planStored
        rw [Option.not_isSome_iff_eq_none.1 hnone]
      simp only [hplan]
      rfl
  · simp only [herr]
    rfl
  · simp only [hmade]
    cases dryRun with
    | true => exact carries_pure
    | false =>
      obtain ⟨b, benched, works, hb, hp⟩ := Engine.planStored_eq_ok hmade
      obtain rfl : made.commit.bundle = bundle :=
        hp.bundle.trans (by simpa using List.find?_some hb)
      exact commit_carries

open Sql in
theorem migrate_accounted {migration : AccountMigration} :
    Accounted e none False faults s (outcome (e.migrate context now migration s))
      (staged ⟨e, context, now, .migrate migration⟩ faults s) := by
  refine unlocked_accounted (x := { saved := s }) rfl (fun u b v h => ?_) fun s =>
    .read_bind (atomic_look _ fun s hs => Store.readsBack_bundlesOf hs _) (fun err herr => ?_)
      fun images himages => ?_
  · simp only [bind_eq_ok, mapError_eq_ok, pure_eq_ok, Prod.mk.injEq] at h
    obtain ⟨_, -, w, hw, -, rfl⟩ := h
    exact (Store.commitBundles_aside hw).heeds
  · simp only [herr]
    rfl
  · simp only [himages]
    exact store_carries (atomic_commitBundles images [] now) (images.map (·.bundle))

open Sql in
theorem transfer_accounted {request : TransferRequest}
    (hforeign : ∀ l ∈ s.locks, l.owner ≠ e.owner) :
    Accounted e ((s.bundleByKey? request.source request.key).map (·.id)) False faults s
      (outcome (e.transfer context now request s))
      (staged ⟨e, context, now, .transfer request⟩ faults s) := by
  refine look_accounted (x := { saved := s }) (fun s hs => Store.readsBack_find hs _) rfl
    (fun err herr => ?_) fun source y hsource hy hsaved => ?_
  · unfold Engine.transfer
    split at herr <;> cases herr
    next hnone => simp only [hnone]; rfl
  · obtain rfl : y.saved = s := hsaved
    split at hsource <;> cases hsource
    next hfound =>
    unfold Engine.transfer
    simp only [hfound, Option.map_some]
    refine look_accounted (fun s hs => Store.readsBack_find hs _) hy (fun err herr => ?_)
      fun _ z hfree hz hsame => ?_
    · split at herr <;> cases herr
      next hused => rw [if_pos hused]; rfl
    · split at hfree
      · cases hfree
      next hunused =>
      rw [if_neg hunused]
      rw [← hsame]
      rw [← hsame] at hforeign
      refine holding_accounted hforeign hz (fun u b v h => ?_) fun s => .read_bind
        (atomic_look _ fun s hs => Store.readsBack_subscriptionsOf hs _) (fun err herr => ?_)
          fun made hmade => ?_
      · simp only [bind_eq_ok, mapError_eq_ok, pure_eq_ok, Prod.mk.injEq] at h
        obtain ⟨_, -, w, hw, -, rfl⟩ := h
        exact (Store.commitBundles_aside hw).heeds
      · simp only [herr]
        rfl
      · simp only [hmade]
        exact store_carries (atomic_commitBundles [made.image] made.cancels now) made.image.bundle

/-- A step of any kind is accounted for. -/
theorem staged_accounted (st : Step) (s : Store) (faults : Faults)
    (hforeign : ∀ l ∈ s.locks, l.owner ≠ st.engine.owner) :
    Accounted st.engine (st.target? s) st.Commits faults s (st.run s) (st.staged faults s) := by
  obtain ⟨e, context, now, call⟩ := st
  cases call with
  | createBundle account key => exact createBundle_accounted.mono False.elim
  | createSubscription bundle spec => exact (createSubscription_accounted hforeign).mono False.elim
  | changePlan i spec => exact (changePlan_accounted hforeign).mono False.elim
  | cancel i => exact (cancel_accounted hforeign).mono False.elim
  | uncancel i => exact (uncancel_accounted hforeign).mono False.elim
  | setChargedThrough i date => exact (setChargedThrough_accounted hforeign).mono False.elim
  | repair bundle repair dryRun =>
    refine (repair_accounted hforeign).mono ?_
    rintro rfl
    exact ⟨bundle, repair, rfl⟩
  | migrate migration => exact migrate_accounted.mono False.elim
  | transfer request => exact (transfer_accounted hforeign).mono False.elim

end Step

/-- A step that fails leaves everything but the locks as it was, or it was carried out and only its
lock was not given back or its outcome not read. The locks of others stay, but for one on its bundle
that had expired; its own stays only if giving it back failed. -/
theorem failures_leave_all_or_nothing (st : Step) (s : Store) (faults : Faults)
    (hforeign : ∀ l ∈ s.locks, l.owner ≠ st.engine.owner) :
    AllOrNothing st.engine (st.target? s) faults s (st.run s) (st.staged faults s) :=
  (st.staged_accounted s faults hforeign).toAllOrNothing

namespace Sample

/-- The sample subscription, while another engine holds its bundle and one more. -/
def contested : Store :=
  { after trial with locks := [⟨⟨1⟩, "other", 0⟩, ⟨⟨2⟩, "other", 0⟩] }

/-- A repair of it by an engine that tries for the lock on the next day. -/
def cutNextDay : Step :=
  { step 1 (.repair ⟨1⟩ cutTrial false) with engine := { engine with tries := fun _ => day 1 } }

/-- The database fails when half of the new version is written. -/
def midway : Faults := { statement := fun n => if n = 12 then some .sqlite else none }

/-- The lock that was abandoned is gone, that on another bundle is not, and nothing else has
changed. Without the fault the repair would have been carried out. -/
theorem failures_leave_all_or_nothing_midway :
    (cutNextDay.staged midway contested).1 = .error (.store .sqlite) ∧
    cutNextDay.Succeeds contested ∧ Untouched contested (cutNextDay.staged midway contested).2 ∧
    (cutNextDay.staged midway contested).2.locks = [⟨⟨2⟩, "other", 0⟩] ∧
    Lock.Expired ⟨⟨1⟩, "other", 0⟩ (day 1) engine.ttlMillis := by
  have hforeign : ∀ l ∈ contested.locks, l.owner ≠ cutNextDay.engine.owner := by decide
  have hall := failures_leave_all_or_nothing cutNextDay contested midway hforeign
  have hfails : (cutNextDay.staged midway contested).1 = .error (.store .sqlite) := by
    decide +kernel
  have hlocks : (cutNextDay.staged midway contested).2.locks = [⟨⟨2⟩, "other", 0⟩] := by
    decide +kernel
  have hreads : readsBack (cutNextDay.run contested).2 = true := by decide +kernel
  refine ⟨hfails, ?_, ?_, hlocks, ?_⟩
  · unfold Step.Succeeds
    decide +kernel
  · rcases hall.failed (by simp [hfails]) with h | ⟨-, -, h | h | h⟩
    · exact h
    · exact (h rfl).elim
    · exact (h rfl).elim
    · rw [hreads] at h
      cases h
  · obtain ⟨-, k, -, hexpired⟩ := hall.dropped ⟨⟨1⟩, "other", 0⟩ (by decide)
      (by rw [hlocks]; decide)
    exact hexpired

end Sample

/-- A step that fails leaves everything but the locks as it was, and whether or not it fails, no
lock of its own. -/
def Step.LeavesNoTrace (st : Step) (faults : Faults) (s : Store) : Prop :=
  ((st.staged faults s).1 ≠ .ok () → Untouched s (st.staged faults s).2) ∧
    ∀ l ∈ (st.staged faults s).2.locks, l.owner ≠ st.engine.owner

namespace Sample

/-- A cancellation asked for in the leap second at the end of the calendar. -/
def cancelAtEnd : Step :=
  { step 1 (.cancel ⟨1⟩) with context := { caller with requested := some .last } }

/-- Nothing goes wrong, but the date of the cancellation does not read back once it is stored. And a
cancellation whose lock is not given back is stored, and keeps its lock. -/
theorem failures_leave_traces :
    (after trial).Reachable ∧ (after trial).locks = [] ∧
    ¬ cancelAtEnd.LeavesNoTrace {} (after trial) ∧
    ¬ (step 1 (.cancel ⟨1⟩)).LeavesNoTrace { release := some .sqlite } (after trial) := by
  have hcount (st : Step) (faults : Faults)
      (hfails : (st.staged faults (after trial)).1 = .error (.store .sqlite))
      (hmore : (st.staged faults (after trial)).2.eventCount = (after trial).eventCount + 1) :
      ¬ st.LeavesNoTrace faults (after trial) := by
    rintro ⟨huntouched, -⟩
    have hevents := (huntouched (by simp [hfails])).events
    rw [Store.eventCount, hevents] at hmore
    exact Nat.ne_of_lt (Nat.lt_succ_self _) hmore
  exact ⟨reachable_after trial, by decide +kernel,
    hcount _ _ (by decide +kernel) (by decide +kernel),
    hcount _ _ (by decide +kernel) (by decide +kernel)⟩

end Sample

end Tenure
