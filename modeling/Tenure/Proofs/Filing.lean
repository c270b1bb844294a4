import Mathlib.Data.List.Forall2
import Mathlib.Data.List.Nodup
import Tenure.Run

/-!
# What writes leave in a store

A write that succeeds changes fields of the records there are, adds records behind them and files
events behind those there are. `Rows` says so once for every write of the store, so that what a
reader sees after an operation can be computed from a list of events with their versions.

The checks of the single rows keep a store `Tidy`: no two records, bundles or events of one
version share an identifier, every event belongs to a record, every record to a bundle, and the
event at place `n` has the ordering `n + 1` and dates in whole milliseconds.
-/

namespace Tenure

/-! ## Outcomes -/

section Outcomes

variable {ε ε' α β : Type}

theorem bind_eq_ok {x : Except ε α} {f : α → Except ε β} {b : β} :
    (x >>= f) = .ok b ↔ ∃ a, x = .ok a ∧ f a = .ok b := by
  cases x <;> simp [bind, Except.bind]

theorem pure_eq_ok {a b : α} : (pure a : Except ε α) = .ok b ↔ a = b := by
  simp [pure, Except.pure]

theorem throw_ne_ok {e : ε} {a : α} : (throw e : Except ε α) = .ok a ↔ False := by
  simp [throw, throwThe, MonadExceptOf.throw]

theorem guard_eq_ok {c : Prop} [Decidable c] {e : ε} {f : PUnit → Except ε β} {x : Except ε β}
    {b : β} : (if c then (throw e >>= f) else x) = .ok b ↔ ¬ c ∧ x = .ok b := by
  by_cases hc : c <;> simp [hc, bind_eq_ok, throw_ne_ok]

theorem mapError_eq_ok {f : ε → ε'} {x : Except ε α} {a : α} :
    x.mapError f = .ok a ↔ x = .ok a := by
  cases x <;> simp [Except.mapError]

theorem map_eq_ok {f : α → β} {x : Except ε α} {b : β} :
    x.map f = .ok b ↔ ∃ a, x = .ok a ∧ f a = b := by
  cases x <;> simp [Except.map]

theorem toOption_eq_some {x : Except ε α} {a : α} : x.toOption = some a ↔ x = .ok a := by
  cases x <;> simp [Except.toOption]

theorem eq_ok_getD {x : Except ε α} (h : x.toOption.isSome = true) (a : α) :
    x = .ok (x.toOption.getD a) := by
  cases x with
  | error e => cases h
  | ok b => rfl

theorem exists_eq_ok {x : Except ε α} (h : x.toOption.isSome = true) : ∃ a, x = .ok a := by
  cases x with
  | error e => cases h
  | ok a => exact ⟨a, rfl⟩

theorem liftStore_eq_ok {x : Except StoreError α} {a : α} :
    (liftM x : Except Error α) = .ok a ↔ x = .ok a :=
  mapError_eq_ok

theorem liftCatalog_eq_ok {x : Except CatalogError α} {a : α} :
    (liftM x : Except Error α) = .ok a ↔ x = .ok a :=
  mapError_eq_ok

theorem liftRepair_eq_ok {x : Except RepairError α} {a : α} :
    (liftM x : Except Error α) = .ok a ↔ x = .ok a :=
  mapError_eq_ok

end Outcomes

section Forall₂

variable {α β : Type} {R : α → β → Prop} {xs : List α} {ys : List β}

theorem exists_right_of_forall₂ (h : List.Forall₂ R xs ys) {x : α} (hx : x ∈ xs) :
    ∃ y ∈ ys, R x y := by
  induction h with
  | nil => cases hx
  | cons hxy _ ih =>
    rcases List.mem_cons.1 hx with rfl | hx
    · exact ⟨_, by simp, hxy⟩
    · obtain ⟨y, hy, hxy⟩ := ih hx
      exact ⟨y, by simp [hy], hxy⟩

theorem exists_left_of_forall₂ (h : List.Forall₂ R xs ys) {y : β} (hy : y ∈ ys) :
    ∃ x ∈ xs, R x y :=
  exists_right_of_forall₂ (R := fun y x => R x y) h.flip hy

theorem forall₂_imp_of_mem {S : α → β → Prop} (h : List.Forall₂ R xs ys)
    (himp : ∀ x ∈ xs, ∀ y ∈ ys, R x y → S x y) : List.Forall₂ S xs ys := by
  induction h with
  | nil => exact .nil
  | cons hxy _ ih =>
    exact .cons (himp _ (by simp) _ (by simp) hxy)
      (ih fun x hx y hy => himp x (by simp [hx]) y (by simp [hy]))

end Forall₂

/-! ## Filed events -/

/-- The event as it lies in the store: at its version and its place, dates in milliseconds. -/
def Event.filed (e : Event) (version ordering : Nat) : Event :=
  { e with
    effective := e.effective.floorMillis
    processed := e.processed.floorMillis
    requested := e.requested.floorMillis
    version, ordering, stored := true }

namespace Event

variable (e : Event) (version ordering : Nat)

@[simp] theorem filed_id : (e.filed version ordering).id = e.id := rfl
@[simp] theorem filed_subscription : (e.filed version ordering).subscription = e.subscription := rfl
@[simp] theorem filed_payload : (e.filed version ordering).payload = e.payload := rfl
@[simp] theorem filed_type : (e.filed version ordering).type = e.type := rfl
@[simp] theorem filed_version : (e.filed version ordering).version = version := rfl
@[simp] theorem filed_ordering : (e.filed version ordering).ordering = ordering := rfl
@[simp] theorem filed_effective :
    (e.filed version ordering).effective = e.effective.floorMillis := rfl

end Event

/-- Events, each with its version, as they are filed behind `n` others. -/
def filing (n : Nat) : List (Event × Nat) → List Event
  | [] => []
  | w :: ws => w.1.filed w.2 (n + 1) :: filing (n + 1) ws

@[simp] theorem length_filing (n : Nat) (ws : List (Event × Nat)) :
    (filing n ws).length = ws.length := by
  induction ws generalizing n with
  | nil => rfl
  | cons w ws ih => simp [filing, ih]

theorem filing_append (n : Nat) (ws ws' : List (Event × Nat)) :
    filing n (ws ++ ws') = filing n ws ++ filing (n + ws.length) ws' := by
  induction ws generalizing n with
  | nil => rfl
  | cons w ws ih =>
    have hn : n + 1 + ws.length = n + (ws.length + 1) := by omega
    simp only [List.cons_append, filing, ih, List.length_cons, hn]

theorem mem_filing {n : Nat} {ws : List (Event × Nat)} {f : Event} (h : f ∈ filing n ws) :
    ∃ w ∈ ws, ∃ k, n < k ∧ k ≤ n + ws.length ∧ f = w.1.filed w.2 k := by
  induction ws generalizing n with
  | nil => cases h
  | cons w ws ih =>
    rcases List.mem_cons.1 h with rfl | h
    · exact ⟨w, List.mem_cons_self, n + 1, by omega, by simp, rfl⟩
    · obtain ⟨w', hw', k, hk, hk', rfl⟩ := ih h
      exact ⟨w', List.mem_cons_of_mem _ hw', k, by omega, by simp only [List.length_cons]; omega,
        rfl⟩

theorem exists_mem_filing {n : Nat} {ws : List (Event × Nat)} {w : Event × Nat} (h : w ∈ ws) :
    ∃ k, n < k ∧ w.1.filed w.2 k ∈ filing n ws := by
  induction ws generalizing n with
  | nil => cases h
  | cons w' ws ih =>
    rcases List.mem_cons.1 h with rfl | h
    · exact ⟨n + 1, by omega, List.mem_cons_self⟩
    · obtain ⟨k, hk, hm⟩ := ih (n := n + 1) h
      exact ⟨k, by omega, List.mem_cons_of_mem _ hm⟩

theorem marks_filing (n : Nat) (ws : List (Event × Nat)) :
    (filing n ws).map (fun e => (e.id, e.version)) = ws.map fun w => (w.1.id, w.2) := by
  induction ws generalizing n with
  | nil => rfl
  | cons w ws ih => simp [filing, ih]

/-- The record as it lies in the store, dates in milliseconds. -/
def SubscriptionRecord.filed (r : SubscriptionRecord) (version : Nat) : SubscriptionRecord :=
  { r with
    start := r.start.floorMillis
    bundleStart := r.bundleStart.floorMillis
    alignStart := r.alignStart.floorMillis
    chargedThrough := r.chargedThrough.map (·.floorMillis)
    version }

namespace SubscriptionRecord

variable (r : SubscriptionRecord) (version : Nat)

@[simp] theorem filed_id : (r.filed version).id = r.id := rfl
@[simp] theorem filed_bundle : (r.filed version).bundle = r.bundle := rfl
@[simp] theorem filed_category : (r.filed version).category = r.category := rfl
@[simp] theorem filed_version : (r.filed version).version = version := rfl
@[simp] theorem filed_start : (r.filed version).start = r.start.floorMillis := rfl

end SubscriptionRecord

/-- The dates of a record are whole milliseconds. -/
structure SubscriptionRecord.InMillis (r : SubscriptionRecord) : Prop where
  start : r.start.floorMillis = r.start
  bundleStart : r.bundleStart.floorMillis = r.bundleStart
  alignStart : r.alignStart.floorMillis = r.alignStart
  chargedThrough : ∀ date ∈ r.chargedThrough, date.floorMillis = date

theorem SubscriptionRecord.inMillis_filed (r : SubscriptionRecord) (version : Nat) :
    (r.filed version).InMillis where
  start := Instant.floorMillis_floorMillis _
  bundleStart := Instant.floorMillis_floorMillis _
  alignStart := Instant.floorMillis_floorMillis _
  chargedThrough := by
    intro date hdate
    obtain ⟨paid, -, rfl⟩ := Option.map_eq_some_iff.1 hdate
    exact paid.floorMillis_floorMillis

/-! ## Tidy stores -/

theorem find?_of_nodup {α κ : Type} [DecidableEq κ] {xs : List α} {k : α → κ}
    (h : (xs.map k).Nodup) {x : α} (hx : x ∈ xs) : xs.find? (k · == k x) = some x := by
  cases hf : xs.find? (k · == k x) with
  | none => exact absurd (List.find?_eq_none.1 hf x hx) (by simp)
  | some y =>
    have hkey : k y = k x := by simpa using List.find?_some hf
    rw [List.inj_on_of_nodup_map h (List.mem_of_find?_eq_some hf) hx hkey]

/-- The order that the checks of the single rows keep. -/
structure Store.Tidy (s : Store) : Prop where
  bundleIds : (s.bundles.map (·.id)).Nodup
  recordIds : (s.records.map (·.id)).Nodup
  recordBundle : ∀ r ∈ s.records, ∃ b ∈ s.bundles, b.id = r.bundle
  marks : (s.events.map fun e => (e.id, e.version)).Nodup
  eventRecord : ∀ e ∈ s.events, ∃ r ∈ s.records, r.id = e.subscription
  orderings : ∀ i e, s.events[i]? = some e → e.ordering = i + 1
  bundleDates : ∀ b ∈ s.bundles, b.start.floorMillis = b.start
  recordDates : ∀ r ∈ s.records, r.InMillis
  eventDates : ∀ e ∈ s.events, e.effective.floorMillis = e.effective

theorem Store.tidy_empty : Store.Tidy {} where
  bundleIds := .nil
  recordIds := .nil
  recordBundle := by simp
  marks := .nil
  eventRecord := by simp
  orderings := by simp
  bundleDates := by simp
  recordDates := by simp
  eventDates := by simp

namespace Store.Tidy

variable {s : Store}

theorem ordering_le (hs : s.Tidy) {e : Event} (he : e ∈ s.events) :
    e.ordering ≤ s.events.length := by
  obtain ⟨i, hi⟩ := List.mem_iff_getElem?.1 he
  have := hs.orderings i e hi
  have := (List.getElem?_eq_some_iff.1 hi).1
  omega

theorem pairwise_ordering (hs : s.Tidy) :
    s.events.Pairwise (fun a b => a.ordering < b.ordering) := by
  apply List.pairwise_iff_getElem.2
  intro i j hi hj hij
  rw [hs.orderings i _ (List.getElem?_eq_getElem hi),
    hs.orderings j _ (List.getElem?_eq_getElem hj)]
  omega

theorem record_unique (hs : s.Tidy) {r q : SubscriptionRecord} (hr : r ∈ s.records)
    (hq : q ∈ s.records) (h : r.id = q.id) : r = q :=
  List.inj_on_of_nodup_map hs.recordIds hr hq h

theorem record?_eq (hs : s.Tidy) {r : SubscriptionRecord} (hr : r ∈ s.records) :
    s.record? r.id = some r :=
  find?_of_nodup hs.recordIds hr

end Store.Tidy

theorem Store.mem_of_record? {s : Store} {id : SubscriptionId} {r : SubscriptionRecord}
    (h : s.record? id = some r) : r ∈ s.records ∧ r.id = id :=
  ⟨List.mem_of_find?_eq_some h, by simpa using List.find?_some h⟩

/-! ## Rows -/

/-- What a write does to the rows of a store: `change` to the records there are, `fresh` records
behind them, and events filed behind those there are. -/
structure Rows (s s' : Store) (change : SubscriptionRecord → SubscriptionRecord)
    (fresh : List SubscriptionRecord) (written : List (Event × Nat)) : Prop where
  records : s'.records = s.records.map change ++ fresh
  events : s'.events = s.events ++ filing s.events.length written
  keeps : ∀ r, (change r).id = r.id ∧ (change r).bundle = r.bundle ∧
    (change r).category = r.category
  bundles : ∃ (alter : Bundle → Bundle) (new : List Bundle),
    s'.bundles = s.bundles.map alter ++ new ∧
      ∀ b, (alter b).id = b.id ∧ (alter b).key = b.key ∧ (alter b).account = b.account
  locks : s'.locks = s.locks
  tidy : s.Tidy → s'.Tidy

namespace Rows

variable {s t u : Store} {change change' : SubscriptionRecord → SubscriptionRecord}
  {fresh fresh' : List SubscriptionRecord} {written written' : List (Event × Nat)}

theorem refl (s : Store) : Rows s s id [] [] where
  records := by simp
  events := by simp [filing]
  keeps := by simp
  bundles := ⟨id, [], by simp, by simp⟩
  locks := rfl
  tidy := id

theorem trans (h : Rows s t change fresh written) (h' : Rows t u change' fresh' written') :
    Rows s u (change' ∘ change) (fresh.map change' ++ fresh') (written ++ written') where
  records := by rw [h'.records, h.records]; simp
  events := by
    rw [h'.events, h.events, filing_append, List.append_assoc, List.length_append, length_filing]
  keeps := by
    intro r
    obtain ⟨h1, h2, h3⟩ := h.keeps r
    obtain ⟨h1', h2', h3'⟩ := h'.keeps (change r)
    exact ⟨h1'.trans h1, h2'.trans h2, h3'.trans h3⟩
  bundles := by
    obtain ⟨f, bs, hb, hf⟩ := h.bundles
    obtain ⟨g, cs, hc, hg⟩ := h'.bundles
    refine ⟨g ∘ f, bs.map g ++ cs, by rw [hc, hb]; simp, fun b => ?_⟩
    obtain ⟨h1, h2, h3⟩ := hf b
    obtain ⟨h1', h2', h3'⟩ := hg (f b)
    exact ⟨h1'.trans h1, h2'.trans h2, h3'.trans h3⟩
  locks := h'.locks.trans h.locks
  tidy := h'.tidy ∘ h.tidy

theorem mem_records (h : Rows s t change fresh written) {r : SubscriptionRecord}
    (hr : r ∈ s.records) : change r ∈ t.records := by
  rw [h.records]
  exact List.mem_append_left _ (List.mem_map_of_mem hr)

theorem records_eq (h : Rows s t id [] written) : t.records = s.records := by
  rw [h.records, List.append_nil, List.map_id]

theorem recordIds (h : Rows s t change [] written) (hids : (s.records.map (·.id)).Nodup) :
    (t.records.map (·.id)).Nodup := by
  have hsame : (·.id) ∘ change = (·.id) := funext fun r => (h.keeps r).1
  rwa [h.records, List.append_nil, List.map_map, hsame]

theorem record?_eq (h : Rows s t change fresh written) (hids : (s.records.map (·.id)).Nodup)
    {r : SubscriptionRecord} (hr : r ∈ s.records) : t.record? r.id = some (change r) := by
  have hkeeps : ((·.id == r.id) : SubscriptionRecord → Bool) ∘ change = (·.id == r.id) :=
    funext fun q => by simp [(h.keeps q).1]
  have hfound : s.records.find? (·.id == r.id) = some r := find?_of_nodup hids hr
  rw [Store.record?, h.records, List.find?_append, List.find?_map, hkeeps, hfound]
  rfl

theorem bundle (h : Rows s t change fresh written) {b : BundleId}
    (hb : ∃ x ∈ s.bundles, x.id = b) : ∃ x ∈ t.bundles, x.id = b := by
  obtain ⟨alter, new, hbundles, halter⟩ := h.bundles
  obtain ⟨x, hx, hid⟩ := hb
  refine ⟨alter x, ?_, (halter x).1.trans hid⟩
  rw [hbundles]
  exact List.mem_append_left _ (List.mem_map_of_mem hx)

end Rows

end Tenure
