import Tenure.Proofs.Writes
import Tenure.Session

/-!
# Calls of storage are carried out as a whole or not at all

A call of storage is a sequence of statements, and the store after it is stated by a function. Two
relations tie the one to the other.

* `Realises`: within a transaction, statements do to the working copy what a function says. It
  is closed under doing one thing after another (`Realises.bind`), so the statements of a
  transaction realise the function that is put together from theirs.
* `Atomic`: outside of transactions, a call saves what a function gives, or it fails and saves
  nothing. Within a transaction the working copy may be written to in part when a statement fails;
  since it is given up then, a transaction is atomic (`RealisesOn.atomic`).

Where nothing goes wrong, what fails is what the function fails on. `RealisesOn` and `Atomic` name a
condition for this, as reading fails by itself on rows that do not read back.
-/

namespace Tenure

/-! ## What reads back -/

section Dated

variable {α β : Type} [Dated α] [Dated β]

theorem readsBack_iff {x : α} : readsBack x = true ↔ ∀ t ∈ Dated.dates x, t.readsBack = true :=
  List.all_eq_true

theorem readsBack_of_subset {x : α} {y : β} (h : Dated.dates y ⊆ Dated.dates x)
    (hx : readsBack x = true) : readsBack y = true :=
  readsBack_iff.2 fun t ht => readsBack_iff.1 hx t (h ht)

theorem dates_subset_of_mem {x : α} {xs : List α} (h : x ∈ xs) :
    Dated.dates x ⊆ Dated.dates xs :=
  fun _ ht => List.mem_flatMap.2 ⟨x, h, ht⟩

theorem dates_subset_of_subset {xs ys : List α} (h : xs ⊆ ys) :
    Dated.dates xs ⊆ Dated.dates ys := by
  intro t ht
  obtain ⟨x, hx, ht⟩ := List.mem_flatMap.1 ht
  exact List.mem_flatMap.2 ⟨x, h hx, ht⟩

theorem dates_option_subset {x : Option α} {dates : List Instant}
    (h : ∀ a, x = some a → Dated.dates a ⊆ dates) : Dated.dates x ⊆ dates := by
  cases x with
  | none => exact List.nil_subset _
  | some a => simpa [Dated.dates] using h a rfl

end Dated

namespace Store

variable {s : Store}

theorem dates_bundles_subset (s : Store) : Dated.dates s.bundles ⊆ Dated.dates s :=
  fun _ h => List.mem_append_left _ (List.mem_append_left _ h)

theorem dates_records_subset (s : Store) : Dated.dates s.records ⊆ Dated.dates s :=
  fun _ h => List.mem_append_left _ (List.mem_append_right _ h)

theorem dates_events_subset (s : Store) : Dated.dates s.events ⊆ Dated.dates s :=
  fun _ h => List.mem_append_right _ h

theorem dates_visible_subset {r : SubscriptionRecord} (h : r ∈ s.records) :
    Dated.dates (s.visible r) ⊆ Dated.dates s := by
  intro t ht
  rcases List.mem_append.1 ht with ht | ht
  · exact s.dates_records_subset (dates_subset_of_mem h ht)
  · refine s.dates_events_subset (dates_subset_of_subset (fun e he => ?_) ht)
    exact (List.mem_filter.1 ((sortBy_perm _ _).mem_iff.1 he)).1

theorem readsBack_find (h : readsBack s = true) (p : Bundle → Bool) :
    readsBack (s.bundles.find? p) = true :=
  readsBack_of_subset (dates_option_subset fun _ hb => List.Subset.trans
    (dates_subset_of_mem (List.mem_of_find?_eq_some hb)) s.dates_bundles_subset) h

theorem readsBack_bundlesOf (h : readsBack s = true) (account : AccountId) :
    readsBack (s.bundlesOf account) = true :=
  readsBack_of_subset (List.Subset.trans (dates_subset_of_subset fun _ hb =>
    (List.mem_filter.1 ((sortBy_perm _ _).mem_iff.1 hb)).1) s.dates_bundles_subset) h

theorem readsBack_subscription? (h : readsBack s = true) (i : SubscriptionId) :
    readsBack (s.subscription? i) = true :=
  readsBack_of_subset (dates_option_subset fun sub hsub => by
    obtain ⟨r, hr, rfl⟩ := Option.map_eq_some_iff.1 hsub
    exact dates_visible_subset (mem_of_record? hr).1) h

theorem readsBack_subscriptionsOf (h : readsBack s = true) (b : BundleId) :
    readsBack (s.subscriptionsOf b) = true := by
  refine readsBack_of_subset (fun t ht => ?_) h
  obtain ⟨sub, hsub, ht⟩ := List.mem_flatMap.1 ht
  obtain ⟨r, hr, rfl⟩ := List.mem_map.1 hsub
  exact dates_visible_subset (List.mem_filter.1 ((sortBy_perm _ _).mem_iff.1 hr)).1 ht

end Store

namespace Sql

variable {ε α β : Type} {P : Store → Prop}

/-! ## Within a transaction -/

/-- What `f` gives reads back. -/
def Yields (f : Store → Except ε (α × Store)) (s : Store) : Prop :=
  ∀ p, f s = .ok p → readsBack p.2 = true

/-- Within a transaction, `c` does to the working copy what `f` says, and leaves what is saved.
Where nothing goes wrong and `P` holds of the copy, it fails only as `f` does. -/
def RealisesOn (P : Store → Prop) (c : Sql ε α) (f : Store → Except ε (α × Store)) : Prop :=
  ∀ faults x w, x.working = some w →
    match c faults x with
    | .ok a y => y.saved = x.saved ∧ ∃ t, y.working = some t ∧ f w = .ok (a, t)
    | .error err y => y.saved = x.saved ∧ (faults = {} → P w → f w = .error err)

/-- On every working copy. -/
abbrev Realises (c : Sql ε α) (f : Store → Except ε (α × Store)) : Prop :=
  RealisesOn (fun _ => True) c f

/-- Statements realise any function that agrees with the one they realise, on fewer working copies
where it fails. -/
theorem RealisesOn.imp {Q : Store → Prop} {c : Sql ε α} {f g : Store → Except ε (α × Store)}
    (h : RealisesOn P c f) (hok : ∀ s p, f s = .ok p → g s = .ok p)
    (herr : ∀ s err, Q s → P s ∧ (f s = .error err → g s = .error err)) : RealisesOn Q c g := by
  intro faults x w hx
  have hrun := h faults x w hx
  cases hc : c faults x with
  | ok a y =>
    rw [hc] at hrun
    obtain ⟨hsaved, t, ht, hf⟩ := hrun
    exact ⟨hsaved, t, ht, hok w _ hf⟩
  | error err y =>
    rw [hc] at hrun
    refine ⟨hrun.1, fun hfaults hw => ?_⟩
    obtain ⟨hP, himp⟩ := herr w err hw
    exact himp (hrun.2 hfaults hP)

theorem realises_pure (a : α) : Realises (pure a : Sql ε α) fun s => .ok (a, s) :=
  fun _ _ w hx => ⟨rfl, w, hx, rfl⟩

theorem realises_throw (err : ε) : Realises (throw err : Sql ε α) fun _ => .error err :=
  fun _ _ _ _ => ⟨rfl, fun _ _ => rfl⟩

theorem realises_exec (f : Store → Except StoreError (α × Store)) : Realises (exec f) f := by
  intro faults x w hx
  unfold exec perform
  cases hfault : faults.statement x.statements with
  | some err =>
    refine ⟨rfl, fun hnone => ?_⟩
    subst hnone
    cases hfault
  | none =>
    have hcurrent : Session.current { x with statements := x.statements + 1 } = w := by
      simp [Session.current, hx]
    rw [hcurrent]
    cases hf : f w with
    | error err => exact ⟨rfl, fun _ _ => rfl⟩
    | ok p => simp [Session.write, hx]

theorem realises_update (f : Store → Except StoreError Store) : Realises (update f) (noValue f) :=
  realises_exec _

theorem fetch_eq_ok [Dated α] {read : Store → α} {s : Store} {p : α × Store}
    (h : fetch read s = .ok p) : p = (read s, s) := by
  unfold fetch at h
  split at h <;> cases h
  rfl

theorem fetch_of_readsBack [Dated α] {read : Store → α} {s : Store}
    (h : readsBack (read s) = true) : fetch read s = .ok (read s, s) :=
  if_pos h

/-- What is read is what the working copy holds, if that reads back. -/
theorem realisesOn_query [Dated α] (read : Store → α) :
    RealisesOn (fun s => readsBack (read s) = true) (query read) fun s => .ok (read s, s) :=
  (realises_exec (fetch read)).imp (fun _ _ h => congrArg _ (fetch_eq_ok h).symm) fun s _ h =>
    ⟨trivial, fun herr => by rw [fetch_of_readsBack h] at herr; cases herr⟩

theorem bind_run (c : Sql ε α) (k : α → Sql ε β) (faults : Faults) (x : Session) :
    (c >>= k) faults x = match c faults x with
      | .ok a y => k a faults y
      | .error err y => .error err y := by
  show EStateM.bind (c faults) (fun a => k a faults) x = _
  unfold EStateM.bind
  cases c faults x <;> rfl

theorem RealisesOn.bind {Q : α → Store → Prop} {c : Sql ε α} {f : Store → Except ε (α × Store)}
    {k : α → Sql ε β} {g : α → Store → Except ε (β × Store)} (hc : RealisesOn P c f)
    (hk : ∀ a, RealisesOn (Q a) (k a) (g a))
    (hQ : ∀ s a t, P s → f s = .ok (a, t) → Q a t) :
    RealisesOn P (c >>= k) fun s => f s >>= fun p => g p.1 p.2 := by
  intro faults x w hx
  have hfirst := hc faults x w hx
  rw [bind_run]
  cases hrun : c faults x with
  | error err y =>
    rw [hrun] at hfirst
    refine ⟨hfirst.1, fun hfaults hw => ?_⟩
    simp only [hfirst.2 hfaults hw]
    rfl
  | ok a y =>
    rw [hrun] at hfirst
    obtain ⟨hsaved, t, ht, hf⟩ := hfirst
    have hthen := hk a faults y t ht
    simp only [hf]
    cases hrest : k a faults y with
    | ok b z =>
      rw [hrest] at hthen
      exact ⟨hthen.1.trans hsaved, hthen.2⟩
    | error err z =>
      rw [hrest] at hthen
      exact ⟨hthen.1.trans hsaved, fun hfaults hw => hthen.2 hfaults (hQ w a t hw hf)⟩

theorem RealisesOn.update_bind {Q : Store → Prop} {c : Sql ε Unit} {f : Store → Except ε Store}
    {k : Sql ε α} {g : Store → Except ε (α × Store)} (hc : RealisesOn P c (noValue f))
    (hk : RealisesOn Q k g) (hQ : ∀ s t, P s → f s = .ok t → Q t) :
    RealisesOn P (do c; k) fun s => f s >>= g := by
  have heq : (fun s => f s >>= g) = fun s => noValue f s >>= fun p => g p.2 := by
    funext s
    unfold noValue
    cases f s <;> rfl
  rw [heq]
  refine hc.bind (Q := fun _ => Q) (fun _ => hk) fun s _ t hs ht => ?_
  obtain ⟨_, hu, h⟩ := map_eq_ok.1 ht
  cases h
  exact hQ s _ hs hu

theorem RealisesOn.of_eq {c : Sql ε α} {f g : Store → Except ε (α × Store)}
    (h : RealisesOn P c f) (heq : ∀ s, g s = f s) : RealisesOn P c g :=
  funext heq ▸ h

/-- A write, and something that reads what all of it comes to. -/
theorem RealisesOn.update_bind_yields {c : Sql ε Unit} {f : Store → Except ε Store}
    {k : Sql ε α} {g : Store → Except ε (α × Store)} (hc : Realises c (noValue f))
    (hk : RealisesOn (Yields g) k g) :
    RealisesOn (Yields fun s => f s >>= g) (do c; k) fun s => f s >>= g :=
  (hc.imp (fun _ _ h => h) fun _ _ _ => ⟨trivial, id⟩).update_bind hk fun _ t hs ht p hp =>
    hs p (bind_eq_ok.2 ⟨t, ht, hp⟩)

namespace Realises

variable {c : Sql ε α} {f : Store → Except ε (α × Store)}

theorem bind {k : α → Sql ε β} {g : α → Store → Except ε (β × Store)} (hc : Realises c f)
    (hk : ∀ a, Realises (k a) (g a)) : Realises (c >>= k) fun s => f s >>= fun p => g p.1 p.2 :=
  RealisesOn.bind hc hk fun _ _ _ _ _ => trivial

theorem update_bind {c : Sql ε Unit} {f : Store → Except ε Store} {k : Sql ε α}
    {g : Store → Except ε (α × Store)} (hc : Realises c (noValue f)) (hk : Realises k g) :
    Realises (do c; k) fun s => f s >>= g :=
  RealisesOn.update_bind hc hk fun _ _ _ _ => trivial

theorem then_update {c k : Sql ε Unit} {f g : Store → Except ε Store} (hc : Realises c (noValue f))
    (hk : Realises k (noValue g)) : Realises (do c; k) (noValue fun s => f s >>= g) :=
  (hc.update_bind hk).of_eq fun s => by
    simp only [noValue]
    cases f s <;> rfl

/-- What is done only where `p` does not hold, and fails otherwise. -/
theorem guard {p : Prop} [Decidable p] {err : ε} {k : PUnit → Sql ε α} (hc : Realises c f) :
    Realises (if p then throw err >>= k else c) fun s => if p then .error err else f s := by
  split
  · exact fun _ _ _ _ => ⟨rfl, fun _ _ => rfl⟩
  · exact hc

end Realises

/-! ## Transactions -/

/-- Outside of transactions, `c` saves what `f` gives, or it fails and leaves what is saved. Where
nothing goes wrong, and everything reads back before and after, it fails only as `f` does. -/
def Atomic (c : Sql ε α) (f : Store → Except ε (α × Store)) : Prop :=
  ∀ faults x, x.working = none →
    match c faults x with
    | .ok a y => y.working = none ∧ f x.saved = .ok (a, y.saved)
    | .error err y => y.working = none ∧ y.saved = x.saved ∧
      (faults = {} → readsBack x.saved = true → Yields f x.saved → f x.saved = .error err)

theorem atomic_exec (f : Store → Except StoreError (α × Store)) : Atomic (exec f) f := by
  intro faults x hx
  unfold exec perform
  cases hfault : faults.statement x.statements with
  | some err =>
    refine ⟨hx, rfl, fun hnone => ?_⟩
    subst hnone
    cases hfault
  | none =>
    have hcurrent : Session.current { x with statements := x.statements + 1 } = x.saved := by
      simp [Session.current, hx]
    rw [hcurrent]
    cases hf : f x.saved with
    | error err => exact ⟨hx, rfl, fun _ _ _ => rfl⟩
    | ok p => simp [Session.write, hx]

/-- Calls agree with any function that agrees with theirs where what is saved reads back. -/
theorem Atomic.imp {c : Sql ε α} {f g : Store → Except ε (α × Store)} (h : Atomic c f)
    (hok : ∀ s p, f s = .ok p → g s = .ok p)
    (herr : ∀ s err, readsBack s = true → f s = .error err → g s = .error err) : Atomic c g := by
  intro faults x hx
  have hrun := h faults x hx
  cases hc : c faults x with
  | ok a y =>
    rw [hc] at hrun
    exact ⟨hrun.1, hok _ _ hrun.2⟩
  | error err y =>
    rw [hc] at hrun
    obtain ⟨hworking, hsaved, hfails⟩ := hrun
    exact ⟨hworking, hsaved, fun hfaults hback hyields =>
      herr _ _ hback (hfails hfaults hback fun p hp => hyields p (hok _ p hp))⟩

theorem Atomic.read_cases {c : Sql ε α} {read : Store → Except ε α}
    (h : Atomic c fun s => (read s).map (·, s)) (faults : Faults) {x : Session}
    (hx : x.working = none) :
    match c faults x with
    | .ok a y => y.working = none ∧ y.saved = x.saved ∧ read x.saved = .ok a
    | .error err y => y.working = none ∧ y.saved = x.saved ∧
      (faults = {} → readsBack x.saved = true → read x.saved = .error err) := by
  have hrun := h faults x hx
  cases hc : c faults x with
  | ok a y =>
    rw [hc] at hrun
    obtain ⟨hworking, hread⟩ := hrun
    obtain ⟨b, hb, hpair⟩ := map_eq_ok.1 hread
    obtain ⟨rfl, hsame⟩ := Prod.mk.inj hpair
    exact ⟨hworking, hsame.symm, hb⟩
  | error err y =>
    rw [hc] at hrun
    obtain ⟨hworking, hsaved, hfails⟩ := hrun
    refine ⟨hworking, hsaved, fun hfaults hback => ?_⟩
    have herr : (read x.saved).map (·, x.saved) = .error err :=
      hfails hfaults hback fun p hp => by
        obtain ⟨_, -, rfl⟩ := map_eq_ok.1 hp
        exact hback
    cases hread : read x.saved <;> rw [hread] at herr <;> cases herr
    rfl

/-- Something is read, and a call of storage follows that depends on it. -/
theorem Atomic.read_bind {c : Sql ε α} {read : Store → Except ε α} {k : α → Sql ε β}
    {g : α → Store → Except ε (β × Store)} (hc : Atomic c fun s => (read s).map (·, s))
    (hk : ∀ a, Atomic (k a) (g a)) : Atomic (c >>= k) fun s => read s >>= fun a => g a s := by
  intro faults x hx
  have hfirst := hc.read_cases faults hx
  rw [bind_run]
  cases hrun : c faults x with
  | error err y =>
    rw [hrun] at hfirst
    obtain ⟨hworking, hsaved, hfails⟩ := hfirst
    refine ⟨hworking, hsaved, fun hfaults hback _ => ?_⟩
    simp only [hfails hfaults hback]
    rfl
  | ok a y =>
    rw [hrun] at hfirst
    obtain ⟨hworking, hsaved, hread⟩ := hfirst
    have hthen := hk a faults y hworking
    rw [hsaved] at hthen
    have heq : (read x.saved >>= fun a => g a x.saved) = g a x.saved := by
      rw [hread]
      rfl
    simpa only [Yields, heq] using hthen

theorem atomic_query [Dated α] {read : Store → α}
    (hread : ∀ s, readsBack s = true → readsBack (read s) = true) :
    Atomic (query read) fun s => .ok (read s, s) :=
  (atomic_exec (fetch read)).imp (fun _ _ h => congrArg _ (fetch_eq_ok h).symm)
    fun s _ hs h => by rw [fetch_of_readsBack (hread s hs)] at h; cases h

/-- What may go wrong first leaves the rest as it is. -/
theorem Atomic.attempt_bind {c : Sql StoreError α} {f : Store → Except StoreError (α × Store)}
    (h : Atomic c f) : Atomic (do attempt; c) f :=
  have hattempt : Atomic attempt fun s => (Except.ok ()).map (·, s) := atomic_exec (noValue .ok)
  hattempt.read_bind fun _ => h

theorem transaction_run (body : Sql StoreError α) (faults : Faults) (x : Session) :
    transaction body faults x =
      match attempt faults x with
      | .error err y => .error err y
      | .ok () y => match body faults { y with working := some y.saved } with
        | .error err z => .error err { z with working := none }
        | .ok a z => match attempt faults z with
          | .error err z => .error err { z with working := none }
          | .ok () z => .ok a { z with saved := z.current, working := none } := by
  rw [transaction, bind_run]
  cases attempt faults x with
  | error err y => rfl
  | ok _ y =>
    show EStateM.tryCatch ((do let a ← body; commit; pure a : Sql StoreError α) faults)
      (fun err z => .error err { z with working := none }) { y with working := some y.saved } = _
    unfold EStateM.tryCatch commit
    simp only [bind_run]
    cases body faults { y with working := some y.saved } with
    | error err z => rfl
    | ok a z =>
      simp only
      cases attempt faults z <;> rfl

/-- What does not change anything fails only where something goes wrong. -/
theorem attempt_cases (faults : Faults) (x : Session) :
    match attempt faults x with
    | .ok _ y => y.saved = x.saved ∧ y.working = x.working
    | .error _ y => y.saved = x.saved ∧ y.working = x.working ∧ faults ≠ {} := by
  unfold attempt update exec perform
  cases hfault : faults.statement x.statements with
  | some err =>
    refine ⟨rfl, rfl, ?_⟩
    rintro rfl
    cases hfault
  | none =>
    obtain ⟨saved, working, n⟩ := x
    cases working <;> exact ⟨rfl, rfl⟩

/-- A transaction is atomic, however far it gets. -/
theorem RealisesOn.atomic {body : Sql StoreError α} {f : Store → Except StoreError (α × Store)}
    (h : RealisesOn P body f) (hP : ∀ s, readsBack s = true → Yields f s → P s) :
    Atomic (transaction body) f := by
  intro faults x hx
  rw [transaction_run]
  have hstart := attempt_cases faults x
  cases hrun : attempt faults x with
  | error err y =>
    rw [hrun] at hstart
    obtain ⟨hsaved, hworking, hfaults⟩ := hstart
    exact ⟨hworking.trans hx, hsaved, fun hnone => (hfaults hnone).elim⟩
  | ok _ y =>
    rw [hrun] at hstart
    obtain ⟨hsaved, -⟩ := hstart
    have hbody := h faults { y with working := some y.saved } y.saved rfl
    simp only
    cases hrest : body faults { y with working := some y.saved } with
    | error err z =>
      rw [hrest] at hbody
      refine ⟨rfl, hbody.1.trans hsaved, fun hfaults hback hyields => ?_⟩
      rw [← hsaved]
      exact hbody.2 hfaults (hP _ (hsaved ▸ hback) (hsaved ▸ hyields))
    | ok a z =>
      rw [hrest] at hbody
      obtain ⟨hsame, t, ht, hf⟩ := hbody
      have hend := attempt_cases faults z
      simp only
      cases hlast : attempt faults z with
      | error err u =>
        rw [hlast] at hend
        obtain ⟨hleft, -, hfaults⟩ := hend
        exact ⟨rfl, (hleft.trans hsame).trans hsaved, fun hnone => (hfaults hnone).elim⟩
      | ok _ u =>
        rw [hlast] at hend
        have hcurrent : u.current = t := by simp [Session.current, hend.2, ht]
        exact ⟨rfl, by rw [hcurrent, ← hf, hsaved]⟩

/-! ## Rows -/

theorem realises_insertEvents (version : Nat) (es : List Event) :
    Realises (insertEvents version es) (noValue (·.insertEvents version es)) := by
  induction es with
  | nil => exact realises_pure ()
  | cons e es ih =>
    refine ((realises_exec _).bind fun _ => ih).of_eq fun s => ?_
    show noValue _ s = s.insertEvent e version >>= _
    simp only [noValue, Store.insertEvents]
    cases s.insertEvent e version <;> rfl

theorem realises_insertSubscription (sub : Subscription) :
    Realises (insertSubscription sub) (noValue fun s =>
      s.insertRecord sub.toSubscriptionRecord 1 >>= (·.insertEvents 1 sub.events)) :=
  (realises_update _).then_update (realises_insertEvents 1 sub.events)

theorem realises_insertSubscriptions (subs : List Subscription) :
    Realises (insertSubscriptions subs) (noValue (·.insertSubscriptions subs)) := by
  induction subs with
  | nil => exact realises_pure ()
  | cons sub subs ih =>
    refine ((realises_insertSubscription sub).then_update ih).of_eq fun s => ?_
    simp only [noValue, Store.insertSubscriptions]
    cases s.insertRecord sub.toSubscriptionRecord 1 <;> rfl

theorem realises_insertImages (now : Instant) (images : List BundleImage) :
    Realises (insertImages now images) (noValue (·.insertImages now images)) := by
  induction images with
  | nil => exact realises_pure ()
  | cons image images ih =>
    exact (realises_update _).then_update
      ((realises_insertSubscriptions _).then_update ((realises_update _).then_update ih))

theorem Realises.require_bind {i : SubscriptionId} {k : SubscriptionRecord → Sql StoreError α}
    {g : SubscriptionRecord → Store → Except StoreError (α × Store)}
    (h : ∀ r, Realises (k r) (g r)) :
    Realises (requireRecord i >>= k) fun s => s.requireRecord i >>= fun r => g r s :=
  (Realises.bind (realises_exec _) h).of_eq fun s => by cases s.requireRecord i <;> rfl

theorem realises_appendOne (bundle : BundleId) (e : Event) :
    Realises (appendOne bundle e) (·.appendOne bundle e) :=
  (Realises.require_bind fun r => (realises_exec (·.insertEvent e r.version)).guard).of_eq
    fun _ => rfl

theorem realises_appendAll (bundle : BundleId) (es : List Event) :
    Realises (appendAll bundle es) (·.appendAll bundle es) := by
  induction es with
  | nil => exact realises_pure []
  | cons e es ih =>
    exact (realises_appendOne bundle e).bind fun stored => ih.bind fun rest => realises_pure _

theorem realises_appendEach (now : Instant) (es : List Event) :
    Realises (appendEach now es) (noValue (·.appendEach now es)) := by
  induction es with
  | nil => exact realises_pure ()
  | cons e es ih =>
    refine (Realises.require_bind fun r => (realises_appendOne r.bundle e).bind fun _ =>
      (realises_update (·.touch r.bundle now)).then_update ih).of_eq fun s => ?_
    simp only [noValue, Store.appendEach]
    cases s.requireRecord e.subscription with
    | error err => rfl
    | ok r =>
      show Except.map _ (s.appendOne r.bundle e >>= _) = s.appendOne r.bundle e >>= _
      cases s.appendOne r.bundle e <;> rfl

theorem realises_writeVersion (bundle : BundleId) (sub : RepairedSubscription) :
    Realises (writeVersion bundle sub) (noValue (·.writeVersion bundle sub)) := by
  have hwrites (r : SubscriptionRecord) :=
    (realises_insertEvents (r.version + 1) sub.events).then_update
      (realises_update fun s => .ok (s.setVersion sub (r.version + 1)))
  refine (Realises.require_bind fun r => (hwrites r).guard).of_eq fun s => ?_
  simp only [noValue, Store.writeVersion]
  cases s.requireRecord sub.id with
  | error err => rfl
  | ok r =>
    show Except.map _ (if r.bundle ≠ bundle then _ else _) = if r.bundle ≠ bundle then _ else _
    split <;> rfl

theorem realises_writeVersions (bundle : BundleId) (subs : List RepairedSubscription) :
    Realises (writeVersions bundle subs) (noValue (·.writeVersions bundle subs)) := by
  induction subs with
  | nil => exact realises_pure ()
  | cons sub subs ih => exact (realises_writeVersion bundle sub).then_update ih

theorem realises_setBundleStart (bundle : BundleId) (start : Option Instant) :
    Realises (setBundleStart bundle start)
      (noValue fun s => .ok (s.setBundleStart bundle start)) := by
  unfold setBundleStart
  cases start with
  | none => exact realises_pure ()
  | some date => exact realises_update _

/-! ## Calls of storage -/

theorem atomic_createBundle (b : Bundle) :
    Atomic (createBundle b) (noValue (·.createBundle b)) :=
  atomic_exec _

theorem atomic_setChargedThrough (i : SubscriptionId) (date : Option Instant) :
    Atomic (setChargedThrough i date) (noValue (·.setChargedThrough i date)) :=
  atomic_exec _

/-- The statement that follows a look for a subscription. -/
def found (i : SubscriptionId) : Option Subscription → Sql StoreError Subscription
  | some stored => pure stored
  | none => throw (.unknownSubscription i)

/-- What it answers, of a store that it leaves as it is. -/
def foundOr (i : SubscriptionId) (s : Store) :
    Option Subscription → Except StoreError (Subscription × Store)
  | some stored => .ok (stored, s)
  | none => .error (.unknownSubscription i)

theorem realises_found (i : SubscriptionId) (stored? : Option Subscription) :
    Realises (found i stored?) (foundOr i · stored?) := by
  cases stored? with
  | none => exact realises_throw _
  | some stored => exact realises_pure stored

theorem realisesOn_lookUp (i : SubscriptionId) :
    RealisesOn (Yields fun s => foundOr i s (s.subscription? i))
      (query (·.subscription? i) >>= found i) fun s => foundOr i s (s.subscription? i) := by
  refine ((realisesOn_query (·.subscription? i)).bind (realises_found i)
    fun _ _ _ _ _ => trivial).imp (fun _ _ h => h) fun s err hs => ⟨?_, id⟩
  cases hsub : s.subscription? i with
  | none => rfl
  | some stored =>
    rw [← hsub]
    exact Store.readsBack_subscription? (hs (stored, s) (by simp only [foundOr, hsub])) i

/-- The new subscription is read before it is saved. -/
theorem atomic_createSubscription (sub : Subscription) (now : Instant) :
    Atomic (createSubscription sub now) (·.createSubscription sub now) := by
  let back (s : Store) := foundOr sub.id s (s.subscription? sub.id)
  have hback := realisesOn_lookUp sub.id
  have hbody := (realises_insertSubscription sub).update_bind_yields
    ((realises_update (·.touch sub.bundle now)).update_bind_yields hback)
  have heq (s : Store) : s.createSubscription sub now =
      (s.insertRecord sub.toSubscriptionRecord 1 >>= (·.insertEvents 1 sub.events)) >>= fun s =>
        s.touch sub.bundle now >>= back := by
    unfold Store.createSubscription
    cases s.insertRecord sub.toSubscriptionRecord 1 <;> rfl
  exact (hbody.of_eq heq).atomic fun s _ h p hp => h p ((heq s).trans hp)

theorem atomic_appendToBundle (bundle : BundleId) (es : List Event) (now : Instant) :
    Atomic (appendToBundle bundle es now) (·.appendToBundle bundle es now) := by
  have hbody := (realises_appendAll bundle es).bind fun stored =>
    Realises.update_bind (realises_update (·.touch bundle now)) (realises_pure stored)
  exact RealisesOn.atomic (hbody.of_eq fun _ => rfl) fun _ _ _ => trivial

theorem atomic_append (i : SubscriptionId) (es : List Event) (now : Instant) :
    Atomic (append i es now) (·.append i es now) := by
  unfold append Store.append
  cases es.find? (·.subscription != i) with
  | some stray => exact fun _ _ hx => ⟨hx, rfl, fun _ _ _ => rfl⟩
  | none => exact (atomic_exec _).read_bind fun r => atomic_appendToBundle r.bundle es now

theorem realisesOn_viewOf (bundle : BundleId) :
    RealisesOn (fun s => readsBack s = true) (viewOf bundle)
      fun s => (s.viewOf bundle).map (·, s) :=
  ((realisesOn_query (·.bundle? bundle)).bind (fun _ => realises_exec _) fun _ _ _ _ _ =>
    trivial).imp (fun _ _ h => h) fun _ _ hs => ⟨Store.readsBack_find hs _, id⟩

theorem atomic_commitRepair (commit : RepairCommit) (now : Instant) :
    Atomic (commitRepair commit now) (·.commitRepair commit now) := by
  refine Atomic.attempt_bind ?_
  have hwrites := (realises_writeVersions commit.bundle commit.subscriptions).update_bind
    ((realises_setBundleStart commit.bundle commit.bundleStart).update_bind
      ((realises_update (·.touch commit.bundle now)).update_bind
        (realises_exec fun s => .ok (s.insertRepair commit now))))
  refine RealisesOn.atomic (((realisesOn_viewOf commit.bundle).bind
    (fun current => Realises.guard hwrites) fun _ _ _ _ _ => trivial).of_eq fun s => ?_)
    fun _ h _ => h
  show s.commitRepair commit now = (s.viewOf commit.bundle).map _ >>= _
  unfold Store.commitRepair
  cases s.viewOf commit.bundle <;> rfl

theorem atomic_commitBundles (images : List BundleImage) (appended : List Event) (now : Instant) :
    Atomic (commitBundles images appended now) (noValue (·.commitBundles images appended now)) :=
  RealisesOn.atomic ((realises_insertImages now images).then_update
    (realises_appendEach now appended)) fun _ _ _ => trivial

theorem atomic_tryLock (bundle : BundleId) (owner : String) (now : Instant) (ttlMillis : Int) :
    Atomic (tryLock bundle owner now ttlMillis)
      fun s => .ok (s.tryLock bundle owner now ttlMillis) := by
  refine RealisesOn.atomic (P := fun _ => True) ?_ fun _ _ _ => trivial
  have hinsert := realises_exec fun s => .ok (s.insertLock bundle owner now)
  by_cases hcutoff : (now.shift? (-(ttlMillis * nanosPerMilli))).isSome = true
  · rw [if_pos hcutoff]
    exact (realises_update fun s => .ok (s.expireLock bundle now ttlMillis)).update_bind hinsert
  · rw [if_neg hcutoff]
    refine hinsert.of_eq fun s => ?_
    have hnone := Option.not_isSome_iff_eq_none.1 hcutoff
    simp [Store.tryLock, Store.takeLock, Store.expire, hnone]

end Sql

end Tenure
