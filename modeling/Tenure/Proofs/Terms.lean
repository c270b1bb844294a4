import Tenure.Proofs.Imports
import Tenure.Proofs.Spans

/-!
# A store as a list of terms

For the question who is active when, a store comes to a list of *terms*: the span of each
subscription with its identifier, bundle and category. All that a reader can be told about activity
can be read off the list (`Term.Describes`), as long as every subscription opens once.

What is written behind a history changes the term of its subscription as the history has it, and
leaves the other terms alone (`Rows.terms_appended`).
-/

namespace Tenure

/-! ## Terms -/

/-- For how long a subscription is active, and what it is. -/
structure Term extends Span where
  id : SubscriptionId
  bundle : BundleId
  category : Category
  deriving DecidableEq

/-- The end of a subscription that is in sight. -/
def Subscription.finish? (sub : Subscription) : Option Instant :=
  (finalStanding sub.events sub.category).bind (·.finish)

/-- A subscription is what its term says. -/
structure Term.Describes (x : Term) (sub : Subscription) : Prop where
  id : sub.id = x.id
  bundle : sub.bundle = x.bundle
  category : sub.category = x.category
  start : sub.start = x.start
  standing : ∀ t, ∃ st, sub.standingAt t = some st ∧ st.start = x.start ∧ st.finish = x.finish ∧
    st.isCancelled = x.finish.any (· ≤ t) ∧ st.isFutureCancelled = x.finish.any (t < ·)
  active : ∀ t, sub.isActiveAt t = true ↔ x.Has t

theorem Term.Describes.finish? {x : Term} {sub : Subscription} (h : x.Describes sub) :
    sub.finish? = x.finish := by
  obtain ⟨st, hst, -, hfinish, -⟩ := h.standing .last
  rw [Subscription.finish?, show finalStanding sub.events sub.category = some st from hst]
  exact hfinish

namespace Store

/-- The term of a subscription. -/
def term (s : Store) (r : SubscriptionRecord) : Term :=
  { spanOf r.start (s.shown r) with id := r.id, bundle := r.bundle, category := r.category }

def terms (s : Store) : List Term := s.records.map s.term

/-- A sound store in which every subscription opens once, at the date of its record. -/
structure Regular (s : Store) : Prop where
  sound : s.Sound
  opens : ∀ r ∈ s.records, OpensOnce r.start (s.shown r)

theorem regular_empty : Store.Regular {} := ⟨sound_empty, by simp⟩

variable {s t : Store} {r : SubscriptionRecord} {x : Term}

theorem standingAt_visible (hs : s.Tidy) (category : Category) (date : Instant) :
    standingAt (s.visible r).events category date = standingAt (s.shown r) category date := by
  rw [standingAt, standingAt, transitions, transitions, effectiveEvents_visible hs]

theorem mem_terms : x ∈ s.terms ↔ ∃ r ∈ s.records, s.term r = x := List.mem_map

namespace Regular

variable (hs : s.Regular)

include hs

theorem describes (hr : r ∈ s.records) : (s.term r).Describes (s.visible r) where
  id := rfl
  bundle := rfl
  category := rfl
  start := rfl
  standing := by
    intro date
    rw [Subscription.standingAt, standingAt_visible hs.sound.tidy]
    exact (hs.opens r hr).standingAt _ date
  active := by
    intro date
    rw [Subscription.isActiveAt, isActiveAt, standingAt_visible hs.sound.tidy]
    exact (hs.opens r hr).isActiveAt_iff _ date

theorem exists_term {b : BundleId} {sub : Subscription} (h : sub ∈ s.subscriptionsOf b) :
    ∃ x ∈ s.terms, x.bundle = b ∧ x.Describes sub := by
  obtain ⟨r, hr, hb, rfl⟩ := mem_subscriptionsOf.1 h
  exact ⟨s.term r, mem_terms.2 ⟨r, hr, rfl⟩, hb, hs.describes hr⟩

theorem exists_subscription (hx : x ∈ s.terms) :
    ∃ sub ∈ s.subscriptionsOf x.bundle, s.subscription? x.id = some sub ∧ x.Describes sub := by
  obtain ⟨r, hr, rfl⟩ := mem_terms.1 hx
  exact ⟨s.visible r, mem_subscriptionsOf.2 ⟨r, hr, rfl, rfl⟩,
    subscription?_of_mem hs.sound.tidy hr, hs.describes hr⟩

theorem term_of_subscription? {i : SubscriptionId} {sub : Subscription}
    (h : s.subscription? i = some sub) : ∃ x ∈ s.terms, x.id = i ∧ x.Describes sub := by
  obtain ⟨r, hr, rfl, rfl⟩ := (subscription?_eq_some hs.sound.tidy).1 h
  exact ⟨s.term r, mem_terms.2 ⟨r, hr, rfl⟩, rfl, hs.describes hr⟩

theorem live_of_liveTarget (hr : r ∈ s.records) {date : Instant} {target : Target}
    (h : Engine.liveTarget (s.visible r) date = .ok target) :
    r.start ≤ date ∧ (s.term r).finish = none := by
  obtain ⟨st, hst, hbegun, hnot, hlater, -⟩ := Engine.liveTarget_eq_ok h
  obtain ⟨st', hst', hstart, -, hcancelled, hfuture⟩ := (hs.describes hr).standing date
  rw [hst] at hst'
  cases hst'
  refine ⟨(show st.start = r.start from hstart) ▸ hbegun, ?_⟩
  rw [hnot] at hcancelled
  rw [hlater] at hfuture
  cases hfinish : (s.term r).finish with
  | none => rfl
  | some f =>
    rw [hfinish] at hcancelled hfuture
    have hlate : ¬ f ≤ date := by simpa using hcancelled
    have hearly : ¬ date < f := by simpa using hfuture
    exact absurd (Int.not_le.1 hlate) hearly

theorem nodup_ids : (s.terms.map (·.id)).Nodup := by
  have hmap : s.terms.map (·.id) = s.records.map (·.id) := by
    rw [terms, List.map_map]
    rfl
  rw [hmap]
  exact hs.sound.tidy.recordIds

theorem unique {y : Term} (hx : x ∈ s.terms) (hy : y ∈ s.terms) (h : x.id = y.id) : x = y :=
  List.inj_on_of_nodup_map hs.nodup_ids hx hy h

theorem inMillis (hx : x ∈ s.terms) : x.InMillis := by
  obtain ⟨r, hr, rfl⟩ := mem_terms.1 hx
  have hstart : r.start ∈ starts (s.shown r) := by
    rw [(hs.opens r hr).starts]
    exact List.mem_cons_self
  refine ⟨floorMillis_of_mem_starts hs.sound.tidy hstart, fun f hf => ?_⟩
  obtain ⟨e, he, rfl⟩ := exists_event_of_mem_endOf (shown_ids hs.sound.tidy r) hf
  exact hs.sound.tidy.eventDates e (mem_shown.1 he).1

theorem start_le_finish (hx : x ∈ s.terms) : ∀ f ∈ x.finish, x.start ≤ f := by
  obtain ⟨r, hr, rfl⟩ := mem_terms.1 hx
  exact fun f hf => le_of_mem_endOf (shown_ids hs.sound.tidy r) hf

end Regular

end Store

/-! ## Active subscriptions -/

/-- The subscriptions of a bundle that are of some category and active at an instant. -/
def Store.activeOf (s : Store) (kind : Category → Bool) (b : BundleId) (t : Instant) :
    List Subscription :=
  (s.subscriptionsOf b).filter fun sub => kind sub.category && sub.isActiveAt t

/-- The base-like subscriptions of a bundle that are active at an instant. -/
abbrev Store.activeBases (s : Store) : BundleId → Instant → List Subscription :=
  s.activeOf (·.isBaseLike)

/-- The add-ons of a bundle that are active at an instant. -/
abbrev Store.activeAddOns (s : Store) : BundleId → Instant → List Subscription :=
  s.activeOf (· == .addOn)

/-- The term has the instant, and is one of the bundle and of some category. -/
structure Term.ActiveOf (x : Term) (kind : Category → Bool) (b : BundleId) (t : Instant) :
    Prop where
  bundle : x.bundle = b
  kind : kind x.category = true
  has : x.Has t

/-- The term is base-like, of the bundle, and has the instant. -/
abbrev Term.IsBaseAt (x : Term) : BundleId → Instant → Prop := x.ActiveOf (·.isBaseLike)

/-- The term is an add-on of the bundle and has the instant. -/
abbrev Term.IsAddOnAt (x : Term) : BundleId → Instant → Prop := x.ActiveOf (· == .addOn)

namespace Store.Regular

variable {s : Store} (hs : s.Regular) {kind : Category → Bool} {b : BundleId} {t : Instant}

include hs

theorem mem_activeOf {sub : Subscription} (h : sub ∈ s.activeOf kind b t) :
    ∃ x ∈ s.terms, x.ActiveOf kind b t ∧ x.id = sub.id := by
  obtain ⟨hsub, hkind⟩ := List.mem_filter.1 h
  obtain ⟨x, hx, hbundle, hdescribes⟩ := hs.exists_term hsub
  obtain ⟨hkind, hactive⟩ := Bool.and_eq_true_iff.1 hkind
  rw [hdescribes.category] at hkind
  exact ⟨x, hx, ⟨hbundle, hkind, (hdescribes.active t).1 hactive⟩, hdescribes.id.symm⟩

theorem exists_activeOf {x : Term} (hx : x ∈ s.terms) (h : x.ActiveOf kind b t) :
    ∃ sub ∈ s.activeOf kind b t, sub.id = x.id := by
  obtain ⟨sub, hsub, -, hdescribes⟩ := hs.exists_subscription hx
  refine ⟨sub, List.mem_filter.2 ⟨h.bundle ▸ hsub, ?_⟩, hdescribes.id⟩
  rw [hdescribes.category, h.kind, Bool.true_and]
  exact (hdescribes.active t).2 h.has

theorem activeOf_ne_nil : s.activeOf kind b t ≠ [] ↔ ∃ x ∈ s.terms, x.ActiveOf kind b t := by
  constructor
  · intro hne
    obtain ⟨sub, hsub⟩ := List.exists_mem_of_ne_nil _ hne
    obtain ⟨x, hx, hactive, -⟩ := hs.mem_activeOf hsub
    exact ⟨x, hx, hactive⟩
  · rintro ⟨x, hx, hactive⟩
    obtain ⟨sub, hsub, -⟩ := hs.exists_activeOf hx hactive
    exact List.ne_nil_of_mem hsub

end Store.Regular

/-! ## What is written -/

/-- The event is what is stored of the draft. -/
structure Event.IsOf (f : Event) (d : Draft) : Prop where
  payload : f.payload = d.payload
  effective : f.effective = d.effective.floorMillis

theorem Laid.of_drafts {n v : Nat} {fs : List Event} {stamp : Stamp} {next : Nat → EventId}
    {ds : List Draft} {i : SubscriptionId}
    (h : Laid n fs (((stamp.events next ds).filter (·.subscription == i)).map (·, v))) :
    List.Forall₂ Event.IsOf fs (ds.filter (·.subscription == i)) := by
  induction ds generalizing fs next with
  | nil =>
    cases h
    exact .nil
  | cons d ds ih =>
    have hsame : (stamp.event (next 0) d).subscription = d.subscription := rfl
    rw [Stamp.events, List.filter_cons, hsame] at h
    rw [List.filter_cons]
    split
    next hown =>
      rw [if_pos hown, List.map_cons] at h
      obtain ⟨f, fs', ⟨_, -, rfl⟩, hrest, rfl⟩ := List.forall₂_cons_right_iff.1 h
      exact .cons ⟨rfl, rfl⟩ (ih hrest)
    next hother =>
      rw [if_neg hother] at h
      exact ih h

theorem filter_key_filterMap {α β κ : Type} [DecidableEq κ] {xs : List α} {k : α → κ}
    {f : α → Option β} {o : β → κ} (hnodup : (xs.map k).Nodup)
    (hown : ∀ x ∈ xs, ∀ y ∈ f x, o y = k x) {x : α} (hx : x ∈ xs) :
    (xs.filterMap f).filter (fun y => o y == k x) = (f x).toList := by
  rw [List.filterMap_eq_flatMap_toList]
  exact filter_key_flatMap hnodup (fun x hx y hy => hown x hx y (Option.mem_toList.1 hy)) hx

theorem filter_key_of_not_mem {β κ : Type} [DecidableEq κ] {ys : List β} {o : β → κ} {key : κ}
    (h : ∀ y ∈ ys, o y ≠ key) : ys.filter (fun y => o y == key) = [] :=
  List.filter_eq_nil_iff.2 fun y hy => by simpa using h y hy

section Appended

variable {s t : Store} {es : List Event} {r : SubscriptionRecord}

theorem Wrote.sound {st : Step} (h : Wrote s t st) (hs : s.Sound) : t.Sound := by
  obtain ⟨_, _, _, heffect⟩ := h.effect hs
  exact heffect.sound hs

/-- A subscription with more events behind those that it showed. -/
structure Store.Grows (s t : Store) (r : SubscriptionRecord) (fs : List Event) : Prop where
  shown : t.shown r = s.shown r ++ fs
  ids : ((s.shown r ++ fs).map (·.id)).Nodup
  rises : (s.shown r ++ fs).Pairwise (fun a b => a.ordering < b.ordering)

/-- A subscription grows by the events that are appended to it, whatever is written from scratch
besides. -/
theorem Rows.grows_beside {subs : List Subscription}
    (h : Rows s t id (Store.scratchRecords subs) (Store.scratchEvents subs ++ s.atVersions es))
    (hs : s.Tidy) (ht : t.Tidy) (hown : ∀ sub ∈ subs, ∀ e ∈ sub.events, e.subscription = sub.id)
    (hr : r ∈ s.records) : ∃ fs, s.Grows t r fs ∧
      Laid s.events.length fs ((es.filter (·.subscription == r.id)).map (·, r.version)) := by
  obtain ⟨fs, hshown, hlaid⟩ := h.shown_appended hs hown hr
  exact ⟨fs, ⟨hshown, hshown ▸ Store.shown_ids ht r, hshown ▸ Store.shown_orderings ht r⟩, hlaid⟩

theorem Rows.grows (h : Rows s t id [] (s.atVersions es)) (hs : s.Tidy) (ht : t.Tidy)
    (hr : r ∈ s.records) : ∃ fs, s.Grows t r fs ∧
      Laid s.events.length fs ((es.filter (·.subscription == r.id)).map (·, r.version)) := by
  have rows : Rows s t id (Store.scratchRecords []) (Store.scratchEvents [] ++ s.atVersions es) := h
  exact rows.grows_beside hs ht (by simp) hr

/-- Events that start nothing leave a regular store, in which each subscription has the term that
follows from its new events. -/
theorem Rows.terms_appended (h : Rows s t id [] (s.atVersions es)) (hs : s.Regular) (ht : t.Sound)
    (hes : starts es = []) (change : Term → Term)
    (hchange : ∀ r ∈ s.records, ∀ fs, s.Grows t r fs →
      Laid s.events.length fs ((es.filter (·.subscription == r.id)).map (·, r.version)) →
        t.term r = change (s.term r)) : t.Regular ∧ t.terms = s.terms.map change := by
  have hrecords := h.records_eq
  refine ⟨⟨ht, fun r hr => ?_⟩, ?_⟩
  · rw [hrecords] at hr
    obtain ⟨fs, hgrows, hlaid⟩ := h.grows hs.sound.tidy ht.tidy hr
    rw [hgrows.shown]
    refine (hs.opens r hr).append hgrows.ids hgrows.rises (starts_eq_nil.2 fun f hf => ?_)
    obtain ⟨e, he, htype⟩ := hlaid.mem_type hf
    rw [htype]
    exact starts_eq_nil.1 hes e (List.mem_filter.1 he).1
  · rw [Store.terms, Store.terms, hrecords, List.map_map]
    refine List.map_congr_left fun r hr => ?_
    obtain ⟨fs, hgrows, hlaid⟩ := h.grows hs.sound.tidy ht.tidy hr
    exact hchange r hr fs hgrows hlaid

namespace Store.Grows

variable {fs : List Event} {f : Event} (h : s.Grows t r fs)

include h

theorem term_eq {finish : Option Instant} (hend : endOf r.start (s.shown r ++ fs) = finish) :
    t.term r = { s.term r with finish := finish } := by
  rw [term, h.shown, spanOf, hend]
  rfl

theorem term_of_others (hfs : ∀ f ∈ fs, f.type ≠ .cancel ∧ f.type ≠ .uncancel) :
    t.term r = s.term r := by
  rw [h.term_eq (endOf_append_of_others h.ids hfs)]
  rfl

/-- Cancelled at a date that lies behind the start, it ends there unless it ends before. -/
theorem term_of_cancel (hfs : fs = [f]) (htype : f.type = .cancel)
    (hstart : r.start ≤ f.effective) : t.term r =
      { s.term r with finish := Instant.earlier (some f.effective) (s.term r).finish } :=
  h.term_eq (endOf_append_cancel h.rises h.ids hfs htype hstart)

/-- Uncancelled at a date that does not lie behind the end, it has no end. -/
theorem term_of_uncancel (hfs : fs = [f]) (htype : f.type = .uncancel) : t.term r =
    { s.term r with finish := (s.term r).finish.filter (· < f.effective) } :=
  h.term_eq (endOf_append_uncancel h.rises h.ids hfs htype)

end Store.Grows

end Appended

end Tenure
