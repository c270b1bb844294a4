import Tenure.Store

/-!
# New identifiers

Bundles, subscriptions and events get their identifiers from a generator. All that is known of it
is that what it gives out is not in use and is not given out twice; nothing is said about the order
of what it gives out.
-/

namespace Tenure

/-- None of the rows has one of the identifiers to come, and none of these comes twice. -/
structure Unused {α ι : Type} (next : Nat → ι) (id : α → ι) (rows : List α) : Prop where
  injective : Function.Injective next
  ne : ∀ x ∈ rows, ∀ n, id x ≠ next n

/-- A supply of identifiers that are not in use in the store. -/
structure Supply.Fresh (supply : Supply) (s : Store) : Prop where
  bundles : Unused supply.bundle (·.id) s.bundles
  records : Unused supply.subscription (·.id) s.records
  events : Unused supply.event (·.id) s.events

/-- A source of identifiers that knows what is in use. -/
structure Generator where
  draw : Store → Supply
  fresh (s : Store) : (draw s).Fresh s

/-- What it gives out one after the other rises, as with identifiers that begin with the time. -/
def Generator.EventsRise (ids : Generator) : Prop :=
  ∀ s m n, m < n → ((ids.draw s).event m).number < ((ids.draw s).event n).number

/-! ## Counting -/

/-- The number behind those of all rows. -/
def numberBehind {α : Type} (number : α → Nat) (rows : List α) : Nat :=
  rows.foldl (fun n x => max n (number x + 1)) 1

theorem unused_counting {α ι : Type} (number : ι → Nat) (mk : Nat → ι)
    (hnumber : ∀ n, number (mk n) = n) (id : α → ι) (rows : List α) :
    Unused (fun n => mk (numberBehind (number ∘ id) rows + n)) id rows where
  injective m n h := by
    have := congrArg number h
    rw [hnumber, hnumber] at this
    omega
  ne x hx n h := by
    have hlt := (foldl_max_le (f := fun x => number (id x) + 1).1
      (Nat.le_refl (numberBehind (number ∘ id) rows))).2 x hx
    rw [h, hnumber] at hlt
    omega

/-- The generator that goes on counting behind the highest number of each kind. -/
def Generator.counting : Generator where
  draw s := .counting (numberBehind (BundleId.number ∘ Bundle.id) s.bundles)
    (numberBehind (SubscriptionId.number ∘ SubscriptionRecord.id) s.records)
    (numberBehind (EventId.number ∘ Event.id) s.events)
  fresh _ :=
    { bundles := unused_counting _ _ (fun _ => rfl) _ _
      records := unused_counting _ _ (fun _ => rfl) _ _
      events := unused_counting _ _ (fun _ => rfl) _ _ }

theorem Generator.counting_eventsRise : counting.EventsRise :=
  fun _ _ _ h => Nat.add_lt_add_left h _

end Tenure
