import Tenure.Proofs.Writes
import Tenure.Run

/-!
# Stray events

A write to the events of a bundle names the subscriptions it writes to, and each of its events names
one once more. Where events are appended the two are compared, and an event of a subscription of
another bundle is turned away. A new subscription and a repair take their events as they come.

The records of other bundles are safe in any case, since a record is changed under its own
identifier (`BundleWrite.run_rows`). Events are filed under the subscription that they name, so
whether the history of another bundle's subscription grows shows in the arguments alone
(`Rows.eventsAt_eq_iff`).

**Theorem (`strays_are_filed`).** No write changes the record of a subscription of another bundle.
Its events stay as they are, at every version, exactly if the write fails or none of its events
names that subscription; and if events are appended, one that does makes the write fail.
-/

namespace Tenure

/-! ## Writes -/

/-- A write of events to a bundle. -/
inductive BundleWrite
  | create (sub : Subscription)
  | append (sub : SubscriptionId) (events : List Event)
  | appendTo (bundle : BundleId) (events : List Event)
  | repair (commit : RepairCommit)

namespace BundleWrite

/-- The bundle that is written to. -/
def bundle? : BundleWrite → Store → Option BundleId
  | create sub, _ => some sub.bundle
  | append sub _, s => (s.record? sub).map (·.bundle)
  | appendTo b _, _ => some b
  | repair commit, _ => some commit.bundle

/-- The events to be written. -/
def events : BundleWrite → List Event
  | create sub => sub.events
  | append _ es | appendTo _ es => es
  | repair commit => commit.subscriptions.flatMap (·.events)

/-- Events that come on top of those there are. -/
def appends : BundleWrite → Bool
  | append .. | appendTo .. => true
  | create _ | repair _ => false

def run (now : Instant) (s : Store) : BundleWrite → Except StoreError Store
  | create sub => (s.createSubscription sub now).map (·.2)
  | append sub es => (s.append sub es now).map (·.2)
  | appendTo b es => (s.appendToBundle b es now).map (·.2)
  | repair commit => (s.commitRepair commit now).map (·.2)

/-- The store after a write; one that fails leaves it as it is. -/
def after (w : BundleWrite) (now : Instant) (s : Store) : Store :=
  match w.run now s with
  | .ok t => t
  | .error _ => s

end BundleWrite

/-! ## What a write does to the rows -/

variable {s t : Store}

theorem Rows.eventsAt_eq_iff {change : SubscriptionRecord → SubscriptionRecord}
    {fresh : List SubscriptionRecord} {written : List (Event × Nat)}
    (h : Rows s t change fresh written) (i : SubscriptionId) :
    (∀ v, t.eventsAt i v = s.eventsAt i v) ↔ ∀ w ∈ written, w.1.subscription ≠ i := by
  constructor
  · intro hsame w hw hi
    obtain ⟨k, -, hk⟩ := exists_mem_filing (n := s.events.length) hw
    have hlength := congrArg List.length (hsame w.2)
    simp only [Store.eventsAt, length_sortBy, h.events, List.filter_append, List.length_append,
      Nat.add_eq_left, List.length_eq_zero_iff, List.filter_eq_nil_iff] at hlength
    exact hlength _ hk (by simp [hi])
  · intro hnone v
    have hnil : ((filing s.events.length written).filter fun e =>
        e.subscription == i && e.version == v) = [] := by
      refine List.filter_eq_nil_iff.2 fun e he => ?_
      obtain ⟨w, hw, k, -, -, rfl⟩ := mem_filing he
      simp [hnone w hw]
    simp only [Store.eventsAt, h.events, List.filter_append, hnil, List.append_nil]

theorem Store.writeVersions_lists {bundle : BundleId} {subs : List RepairedSubscription}
    (hids : (s.records.map (·.id)).Nodup) (h : s.writeVersions bundle subs = .ok t) :
    ∃ written, Rows s t (reviseAll subs) [] written ∧
      written.map (·.1) = subs.flatMap (·.events) := by
  induction subs generalizing s with
  | nil =>
    cases h
    exact ⟨[], .refl _, rfl⟩
  | cons sub subs ih =>
    obtain ⟨u, hu, h⟩ := bind_eq_ok.1 h
    obtain ⟨hrow, -⟩ := writeVersion_rows hids hu
    obtain ⟨written, hrows, hwritten⟩ := ih (hrow.recordIds hids) h
    exact ⟨_, hrow.trans hrows, by simp [hwritten, Function.comp_def]⟩

namespace BundleWrite

variable {w : BundleWrite} {now : Instant}

/-- What a write that succeeds does to the rows: it files its events, and changes no record of
another bundle. -/
theorem run_rows (hids : (s.records.map (·.id)).Nodup) (h : w.run now s = .ok t) :
    ∃ change fresh written, Rows s t change fresh written ∧ written.map (·.1) = w.events ∧
      ∀ r ∈ s.records, w.bundle? s ≠ some r.bundle → change r = r := by
  cases w with
  | create sub =>
    obtain ⟨⟨stored, u⟩, hcreate, rfl⟩ := map_eq_ok.1 h
    exact ⟨_, _, _, Store.createSubscription_rows hcreate, by simp [events, Function.comp_def],
      fun _ _ _ => rfl⟩
  | append i es =>
    obtain ⟨⟨stored, u⟩, happend, rfl⟩ := map_eq_ok.1 h
    exact ⟨_, _, _, (Store.append_rows happend).1,
      by simp [events, Store.atVersions, Function.comp_def], fun _ _ _ => rfl⟩
  | appendTo b es =>
    obtain ⟨⟨stored, u⟩, happend, rfl⟩ := map_eq_ok.1 h
    exact ⟨_, _, _, (Store.appendToBundle_rows happend).1,
      by simp [events, Store.atVersions, Function.comp_def], fun _ _ _ => rfl⟩
  | repair commit =>
    obtain ⟨⟨record, u⟩, hcommit, rfl⟩ := map_eq_ok.1 h
    obtain ⟨-, u, hu, hrest⟩ := Store.commitRepair_writes hcommit
    obtain ⟨written, hrows, hwritten⟩ := Store.writeVersions_lists hids hu
    refine ⟨_, _, _, hrows.trans hrest, by simpa [events] using hwritten, fun r hr hforeign => ?_⟩
    refine Store.reviseAll_of_forall_ne fun sub hsub hid => hforeign ?_
    -- identifiers are unique, so the record that is repaired is one of the bundle
    obtain ⟨q, hq, hqid, hqb⟩ := Store.writeVersions_owned hids hu sub hsub
    rw [List.inj_on_of_nodup_map hids hr hq (hid.trans hqid.symm), hqb]
    rfl

theorem owned_of_appends (hw : w.appends = true) (h : w.run now s = .ok t) :
    ∀ e ∈ w.events, ∃ r, s.record? e.subscription = some r ∧ w.bundle? s = some r.bundle := by
  cases w with
  | create sub => cases hw
  | repair commit => cases hw
  | append i es =>
    obtain ⟨⟨stored, u⟩, happend, rfl⟩ := map_eq_ok.1 h
    obtain ⟨hrows, hown⟩ := Store.append_rows happend
    have hknown : ∃ r, s.record? i = some r := by
      unfold Store.append at happend
      split at happend
      · cases happend
      · obtain ⟨r, hr, -⟩ := bind_eq_ok.1 happend
        exact ⟨r, Store.requireRecord_eq_ok.1 hr⟩
    obtain ⟨r, hr⟩ := hknown
    intro e he
    exact ⟨r, by rw [hown e he, hr], by rw [bundle?, hr, Option.map_some]⟩
  | appendTo b es =>
    obtain ⟨⟨stored, u⟩, happend, rfl⟩ := map_eq_ok.1 h
    intro e he
    obtain ⟨r, hr, rfl⟩ := (Store.appendToBundle_rows happend).2 e he
    exact ⟨r, hr, rfl⟩

end BundleWrite

/-- **Stray events are filed where they belong.** Whatever is written to a bundle, the record of a
subscription of another one stays. Its events stay as well, at every version, if the write fails or
none of its events names the subscription, and not otherwise. Where events are appended, naming it
is an error, and nothing is written. -/
theorem strays_are_filed (hids : (s.records.map (·.id)).Nodup) (w : BundleWrite) (now : Instant)
    {r : SubscriptionRecord} (hr : r ∈ s.records) (hforeign : w.bundle? s ≠ some r.bundle) :
    (w.after now s).record? r.id = some r ∧
      ((∀ v, (w.after now s).eventsAt r.id v = s.eventsAt r.id v) ↔
        (∃ err, w.run now s = .error err) ∨ ∀ e ∈ w.events, e.subscription ≠ r.id) ∧
      (w.appends = true → (∃ e ∈ w.events, e.subscription = r.id) →
        (∃ err, w.run now s = .error err) ∧ w.after now s = s) := by
  cases h : w.run now s with
  | error err =>
    have hafter : w.after now s = s := by rw [BundleWrite.after, h]
    rw [hafter]
    exact ⟨find?_of_nodup hids hr, by simp, fun _ _ => ⟨⟨err, rfl⟩, rfl⟩⟩
  | ok t =>
    have hafter : w.after now s = t := by rw [BundleWrite.after, h]
    obtain ⟨change, fresh, written, hrows, hwritten, hchange⟩ := w.run_rows hids h
    refine ⟨?_, ?_, fun happends ⟨e, he, hid⟩ => ?_⟩
    · rw [hafter, hrows.record?_eq hids hr, hchange r hr hforeign]
    · rw [hafter, hrows.eventsAt_eq_iff, ← hwritten]
      simp
    · obtain ⟨q, hq, hqb⟩ := w.owned_of_appends happends h e he
      rw [hid, Store.record?, find?_of_nodup hids hr, Option.some.injEq] at hq
      exact absurd (hq ▸ hqb) hforeign

namespace Sample

/-- Two bundles, one of which has a subscription. -/
def neighbours : List Step := trial ++ [step 0 (.createBundle ⟨2⟩ "key")]

/-- The cancellation of that subscription. -/
def stray : Event :=
  { id := ⟨9⟩, subscription := ⟨1⟩, effective := day 5, processed := day 5, requested := day 5,
    payload := .cancel, version := 1, ordering := 0, stored := false, createdBy := "operator" }

/-- A subscription of the other bundle, which brings the cancellation along. -/
def intruder : Subscription :=
  { id := ⟨2⟩, bundle := ⟨2⟩, category := .base, start := day 0, bundleStart := day 0,
    alignStart := day 0, chargedThrough := none, version := 1, events := [stray] }

end Sample

/-- The other bundle's subscription has one more event from then on, on the record that it had. To
append the event to the other bundle is an error. -/
theorem strays_are_filed_sample :
    ∃ r, r ∈ (Sample.after Sample.neighbours).records ∧ r.id = ⟨1⟩ ∧ r.bundle = ⟨1⟩ ∧
      ((BundleWrite.create Sample.intruder).after (Sample.day 0)
        (Sample.after Sample.neighbours)).record? r.id = some r ∧
      (¬∀ v, ((BundleWrite.create Sample.intruder).after (Sample.day 0)
        (Sample.after Sample.neighbours)).eventsAt r.id v =
          (Sample.after Sample.neighbours).eventsAt r.id v) ∧
      ∃ err, (BundleWrite.appendTo ⟨2⟩ [Sample.stray]).run (Sample.day 0)
        (Sample.after Sample.neighbours) = .error err := by
  have hids : ((Sample.after Sample.neighbours).records.map (·.id)).Nodup := by decide +kernel
  have hrecord : ((Sample.after Sample.neighbours).record? ⟨1⟩).map (·.bundle) = some ⟨1⟩ := by
    decide +kernel
  obtain ⟨r, hfound, hbundle⟩ := Option.map_eq_some_iff.1 hrecord
  obtain ⟨hr, hid⟩ := Store.mem_of_record? hfound
  have hforeign : some (⟨2⟩ : BundleId) ≠ some r.bundle := by rw [hbundle]; decide
  obtain ⟨hkept, hiff, -⟩ :=
    strays_are_filed hids (.create Sample.intruder) (Sample.day 0) hr hforeign
  obtain ⟨-, -, herr⟩ :=
    strays_are_filed hids (.appendTo ⟨2⟩ [Sample.stray]) (Sample.day 0) hr hforeign
  have hok : ((BundleWrite.create Sample.intruder).run (Sample.day 0)
      (Sample.after Sample.neighbours)).toOption.isSome = true := by decide +kernel
  refine ⟨r, hr, hid, hbundle, hkept, fun hsame => ?_, ?_⟩
  · rcases hiff.1 hsame with ⟨err, herr⟩ | hnone
    · rw [herr] at hok
      cases hok
    · exact hnone Sample.stray (by simp [BundleWrite.events, Sample.intruder]) hid.symm
  · exact (herr rfl ⟨Sample.stray, by simp [BundleWrite.events], hid.symm⟩).1

end Tenure
