import Tenure.Engine.Staged
import Tenure.Proofs.WriteFrames
import Tenure.Proofs.Effects
import Tenure.Proofs.Transactions

/-!
# Chains of calls of storage

What an operation comes to is stated by a function that is applied under a lock. A chain of calls
is set against it in three steps, each of which allows for a failure of any statement.

* `Carries`: what is done behind the lock saves what the function gives or saves nothing. It may
  fail although it has saved something, but then in reading back what it saved.
* `acquireFrom_cases`: tries for a lock leave all rows, and drop no lock that has not expired.
* `AllOrNothing`: both together, with the release of the lock behind them
  (`holding_allOrNothing`).
-/

namespace Tenure

namespace Sql

variable {ε α β : Type} {s t : Store}

/-! ## Chains behind a lock -/

theorem atomic_reporting (report : StoreError → Error) {c : Sql StoreError α}
    {f : Store → Except StoreError (α × Store)} (h : Atomic c f) :
    Atomic (reporting report c) fun s => (f s).mapError report := by
  intro faults x hx
  have hrun := h faults x hx
  unfold reporting EStateM.adaptExcept
  cases hc : c faults x with
  | ok a y =>
    rw [hc] at hrun
    exact ⟨hrun.1, mapError_eq_ok.2 hrun.2⟩
  | error err y =>
    rw [hc] at hrun
    refine ⟨hrun.1, hrun.2.1, fun hfaults hback hyields => ?_⟩
    have herr := hrun.2.2 hfaults hback fun p hp => hyields p (mapError_eq_ok.2 hp)
    simp only [herr]
    rfl

theorem atomic_plan (f : Store → Except Error α) : Atomic (plan f) fun s => (f s).map (·, s) := by
  intro faults x hx
  unfold plan
  cases hf : f x.saved with
  | ok a => exact ⟨hx, by simp only [hf]; rfl⟩
  | error err => exact ⟨hx, rfl, fun _ _ _ => by simp only [hf]; rfl⟩

theorem atomic_look [Dated β] {read : Store → β} (f : Store → Except Error α)
    (hread : ∀ s, readsBack s = true → readsBack (read s) = true) :
    Atomic (look read f) fun s => (f s).map (·, s) :=
  have hquery : Atomic (reporting .store (query read)) fun s => (Except.ok (read s)).map (·, s) :=
    atomic_reporting .store (atomic_query hread)
  hquery.read_bind fun _ => atomic_plan f

/-- Begun on `s`, a chain comes to `r`, or it fails: with nothing saved, and where nothing goes
wrong only if `r` is that failure, or with what `r` gives saved but not read. -/
def Carries (s : Store) (c : Sql Error Unit) (r : Except Error Store) : Prop :=
  ∀ faults x, x.working = none → x.saved = s →
    match c faults x with
    | .ok _ y => y.working = none ∧ r = .ok y.saved
    | .error err y => y.working = none ∧
      (y.saved = s ∧ (faults = {} → readsBack s = true → (∀ t, r = .ok t → readsBack t = true) →
          r = .error err) ∨
        r = .ok y.saved ∧ (faults.readBack ≠ none ∨ readsBack y.saved = false))

/-- A chain that leaves what is saved, and fails only on a fault of reading back or on what does not
read back. -/
def Confirms (s : Store) (c : Sql Error Unit) : Prop :=
  ∀ faults x, x.working = none → x.saved = s →
    match c faults x with
    | .ok _ y => y.working = none ∧ y.saved = s
    | .error _ y => y.working = none ∧ y.saved = s ∧
      (faults.readBack ≠ none ∨ readsBack s = false)

theorem confirms_pure : Confirms s (pure ()) := fun _ _ hx hs => ⟨hx, hs⟩

theorem confirms_readBack [Dated β] {read : Store → β} {f : Store → Except Error α}
    (hread : readsBack s = true → readsBack (read s) = true) (hf : ∃ a, f s = .ok a) :
    Confirms s (readBack read f) := by
  obtain ⟨a, ha⟩ := hf
  rintro faults ⟨saved, working, n⟩ rfl rfl
  unfold readBack
  rw [bind_run]
  simp only [reporting, EStateM.adaptExcept, perform, Session.current, Option.getD_none]
  cases hfault : faults.readBack with
  | some err => exact ⟨rfl, rfl, .inl (by simp)⟩
  | none =>
    by_cases hback : readsBack (read saved) = true
    · simp only [fetch_of_readsBack hback, bind_run, plan, Session.write, Option.isSome_none,
        Bool.false_eq_true, if_false, ha]
      exact ⟨rfl, rfl⟩
    · simp only [fetch, if_neg hback]
      exact ⟨trivial, trivial, .inr (Bool.eq_false_iff.2 fun h => hback (hread h))⟩

theorem Confirms.bind {c k : Sql Error Unit} (hc : Confirms s c) (hk : Confirms s k) :
    Confirms s (do c; k) := by
  intro faults x hx hs
  have hfirst := hc faults x hx hs
  rw [bind_run]
  cases hrun : c faults x with
  | error err y =>
    rw [hrun] at hfirst
    exact hfirst
  | ok _ y =>
    rw [hrun] at hfirst
    exact hk faults y hfirst.1 hfirst.2

theorem Atomic.carries {c : Sql Error α} {f : Store → Except Error (α × Store)}
    {k : α → Sql Error Unit} (hc : Atomic c f) (hk : ∀ a t, f s = .ok (a, t) → Confirms t (k a)) :
    Carries s (c >>= k) ((f s).map (·.2)) := by
  rintro faults x hx rfl
  have hfirst := hc faults x hx
  rw [bind_run]
  cases hrun : c faults x with
  | error err y =>
    rw [hrun] at hfirst
    obtain ⟨hworking, hsaved, hfails⟩ := hfirst
    refine ⟨hworking, .inl ⟨hsaved, fun hfaults hback hyields => ?_⟩⟩
    have herr := hfails hfaults hback fun p hp => hyields p.2 (by simp only [hp]; rfl)
    rw [herr]
    rfl
  | ok a y =>
    rw [hrun] at hfirst
    obtain ⟨hworking, hf⟩ := hfirst
    have hthen := hk a y.saved hf faults y hworking rfl
    have hsaved : (f x.saved).map (·.2) = .ok y.saved := by rw [hf]; rfl
    simp only [hsaved]
    cases hrest : k a faults y with
    | ok _ z =>
      rw [hrest] at hthen
      exact ⟨hthen.1, by rw [hthen.2]⟩
    | error err z =>
      rw [hrest] at hthen
      obtain ⟨hz, hsame, hcause⟩ := hthen
      exact ⟨hz, .inr ⟨by rw [hsame], by rwa [hsame]⟩⟩

theorem Atomic.saves {c : Sql Error Unit} {f : Store → Except Error (Unit × Store)}
    (hc : Atomic c f) : Carries s c ((f s).map (·.2)) := by
  have h := hc.carries (s := s) (k := fun _ => pure ()) fun _ _ _ => confirms_pure
  rwa [bind_pure] at h

theorem carries_pure : Carries s (pure ()) (.ok s) := fun _ _ hx hs => ⟨hx, by rw [← hs]⟩

/-- Something is read, and what is done then depends on it. -/
theorem Carries.read_bind {c : Sql Error α} {read : Store → Except Error α}
    {k : α → Sql Error Unit} {r : Except Error Store}
    (hc : Atomic c fun s => (read s).map (·, s))
    (hfail : ∀ err, read s = .error err → r = .error err)
    (hk : ∀ a, read s = .ok a → Carries s (k a) r) : Carries s (c >>= k) r := by
  rintro faults x hx rfl
  have hfirst := hc.read_cases faults hx
  rw [bind_run]
  cases hrun : c faults x with
  | error err y =>
    rw [hrun] at hfirst
    obtain ⟨hworking, hsaved, hfails⟩ := hfirst
    exact ⟨hworking, .inl ⟨hsaved, fun hfaults hback _ => hfail err (hfails hfaults hback)⟩⟩
  | ok a y =>
    rw [hrun] at hfirst
    obtain ⟨hworking, hsaved, hread⟩ := hfirst
    exact hk a hread faults y hworking hsaved

/-- A chain that fails, against a function that gives a value, too. -/
theorem Carries.failed {c : Sql Error Unit} {r : Except Error (α × Store)} {faults : Faults}
    {x y : Session} {err : Error} (hc : Carries x.saved c (r.map (·.2))) (hx : x.working = none)
    (hrun : c faults x = .error err y) :
    y.working = none ∧
      (y.saved = x.saved ∧ (faults = {} → readsBack x.saved = true →
          (∀ p, r = .ok p → readsBack p.2 = true) → r = .error err) ∨
        ∃ a, r = .ok (a, y.saved) ∧ (faults.readBack ≠ none ∨ readsBack y.saved = false)) := by
  have h := hc faults x hx rfl
  rw [hrun] at h
  obtain ⟨hy, ⟨hsaved, hfails⟩ | ⟨hsaved, hcause⟩⟩ := h
  · refine ⟨hy, .inl ⟨hsaved, fun hnone hback hyields => ?_⟩⟩
    have herr := hfails hnone hback fun t ht => by
      obtain ⟨p, hp, rfl⟩ := map_eq_ok.1 ht
      exact hyields p hp
    cases r <;> cases herr
    rfl
  · obtain ⟨⟨a, t⟩, hr, rfl⟩ := map_eq_ok.1 hsaved
    exact ⟨hy, .inr ⟨a, hr, hcause⟩⟩

end Sql

/-! ## Taking locks -/

/-- The lock reaches back beyond the age at which it counts as abandoned. -/
def Lock.Expired (l : Lock) (now : Instant) (ttlMillis : Int) : Prop :=
  ∃ cutoff, now.shift? (-(ttlMillis * nanosPerMilli)) = some cutoff ∧
    l.acquiredAt < cutoff.millis

/-- The store is as it was, but for locks on the bundle that had expired when the engine tried. -/
structure Engine.Pruned (e : Engine) (bundle : BundleId) (s t : Store) : Prop where
  rows : t = { s with locks := t.locks }
  locks : t.locks.Sublist s.locks
  dropped : ∀ l ∈ s.locks, l ∉ t.locks →
    l.bundle = bundle ∧ ∃ k < e.settings.attempts, l.Expired (e.tries k) e.ttlMillis

namespace Engine.Pruned

variable {e : Engine} {bundle : BundleId} {s t u : Store}

theorem refl (s : Store) : e.Pruned bundle s s := ⟨rfl, .refl _, fun _ h h' => (h' h).elim⟩

theorem trans (h : e.Pruned bundle s t) (h' : e.Pruned bundle t u) : e.Pruned bundle s u where
  rows := by rw [h'.rows, h.rows]
  locks := h'.locks.trans h.locks
  dropped l hl hdropped := by
    by_cases ht : l ∈ t.locks
    · exact h'.dropped l ht hdropped
    · exact h.dropped l hl ht

theorem expireLock {k : Nat} (hk : k < e.settings.attempts) (s : Store) :
    e.Pruned bundle s (s.expireLock bundle (e.tries k) e.ttlMillis) := by
  unfold Store.expireLock Store.expire
  split
  · exact .refl s
  next cutoff hcutoff =>
    refine ⟨rfl, List.filter_sublist, fun l hl hdropped => ?_⟩
    simp only [List.mem_filter, hl, true_and, Bool.not_eq_true', Bool.not_eq_false,
      Bool.and_eq_true, beq_iff_eq, decide_eq_true_eq] at hdropped
    exact ⟨hdropped.1, k, hk, cutoff, hcutoff, hdropped.2⟩

end Engine.Pruned

namespace Sql

variable {e : Engine} {bundle : BundleId}

theorem readsBack_tryLock (s : Store) (owner : String) (now : Instant) (ttlMillis : Int) :
    readsBack (s.tryLock bundle owner now ttlMillis).2 = readsBack s := by
  unfold Store.tryLock Store.takeLock Store.insertLock Store.expire
  split <;> split <;> rfl

/-- A try takes the lock or only drops one that has expired. -/
theorem tryLock_cases {s t : Store} {k : Nat} {got : Bool} (hk : k < e.settings.attempts)
    (h : s.tryLock bundle e.owner (e.tries k) e.ttlMillis = (got, t)) :
    ∃ u, e.Pruned bundle s u ∧
      t = if got then { u with locks := u.locks ++ [e.lockOf bundle k] } else u := by
  refine ⟨s.expireLock bundle (e.tries k) e.ttlMillis, .expireLock hk s, ?_⟩
  change
    (s.expireLock bundle (e.tries k) e.ttlMillis).insertLock bundle e.owner (e.tries k) = _ at h
  unfold Store.insertLock at h
  split at h <;> cases h <;> rfl

/-- An engine that gets the lock does so after the tries that it is stated to need, and one that
does not leaves what there was. -/
theorem acquireFrom_cases (e : Engine) (bundle : BundleId) (faults : Faults) {k left : Nat}
    (hk : k + left ≤ e.settings.attempts) {x : Session} (hx : x.working = none) :
    match acquireFrom e bundle k left faults x with
    | .ok _ y => y.working = none ∧ e.acquireFrom bundle k left x.saved = (.ok (), y.saved) ∧
      ∃ i t, e.Pruned bundle x.saved t ∧
        y.saved = { t with locks := t.locks ++ [e.lockOf bundle i] }
    | .error err y => y.working = none ∧ e.Pruned bundle x.saved y.saved ∧
      (faults = {} → readsBack x.saved = true →
        e.acquireFrom bundle k left x.saved = (.error err, y.saved)) := by
  induction left generalizing k x with
  | zero => exact ⟨hx, .refl _, fun _ _ => rfl⟩
  | succ left ih =>
    have htry := atomic_reporting .store
      (atomic_tryLock bundle e.owner (e.tries k) e.ttlMillis) faults x hx
    unfold acquireFrom Engine.acquireFrom
    rw [bind_run]
    cases hrun : reporting .store (tryLock bundle e.owner (e.tries k) e.ttlMillis) faults x with
    | error err y =>
      rw [hrun] at htry
      obtain ⟨hworking, hsaved, hfails⟩ := htry
      refine ⟨hworking, hsaved ▸ .refl _, fun hfaults hback => ?_⟩
      -- A try fails only where something goes wrong.
      have herr := hfails hfaults hback fun p hp => by
        cases mapError_eq_ok.1 hp
        rwa [readsBack_tryLock]
      cases herr
    | ok got y =>
      rw [hrun] at htry
      obtain ⟨hworking, hgot⟩ := htry
      have hgot : x.saved.tryLock bundle e.owner (e.tries k) e.ttlMillis = (got, y.saved) := by
        simpa using mapError_eq_ok.1 hgot
      obtain ⟨u, hpruned, hu⟩ := tryLock_cases (by omega) hgot
      rw [hgot]
      cases got with
      | true => exact ⟨hworking, rfl, k, u, hpruned, hu⟩
      | false =>
        obtain rfl : y.saved = u := hu
        have hrest := ih (k := k + 1) (by omega) hworking
        simp only [Bool.false_eq_true, if_false]
        cases hlast : acquireFrom e bundle (k + 1) left faults y with
        | ok _ z =>
          rw [hlast] at hrest
          obtain ⟨hz, hpure, i, t, ht, hsaved⟩ := hrest
          exact ⟨hz, hpure, i, t, hpruned.trans ht, hsaved⟩
        | error err z =>
          rw [hlast] at hrest
          obtain ⟨hz, ht, hfails⟩ := hrest
          refine ⟨hz, hpruned.trans ht, fun hfaults hback => hfails hfaults ?_⟩
          rw [hpruned.rows]
          exact hback

end Sql

/-! ## All or nothing -/

/-- Everything but the locks is as it was. -/
structure Untouched (s t : Store) : Prop where
  bundles : t.bundles = s.bundles
  records : t.records = s.records
  events : t.events = s.events
  repairs : t.repairs = s.repairs
  views : ∀ b, t.viewOf b = s.viewOf b
  orderings : ∀ e version, (t.stamped e version).ordering = (s.stamped e version).ordering

theorem Untouched.of_locks {s t : Store} (h : t = { s with locks := t.locks }) :
    Untouched s t := by
  rw [h]
  exact ⟨rfl, rfl, rfl, rfl, fun _ => rfl, fun _ _ => rfl⟩

/-- What is left of an operation that is stated to come to `run`, and came to `r` where `faults`
went wrong. -/
structure AllOrNothing (e : Engine) (target : Option BundleId) (faults : Faults) (s : Store)
    (run r : Except Error Unit × Store) : Prop where
  /-- What is done is done as stated. -/
  done : r.1 = .ok () → r = run
  /-- What fails leaves nothing behind; or else it was carried out, but the lock was not given back
  or the outcome not read. -/
  failed : r.1 ≠ .ok () → Untouched s r.2 ∨
    run.1 = .ok () ∧ Untouched run.2 r.2 ∧
      (faults.release ≠ none ∨ faults.readBack ≠ none ∨ readsBack run.2 = false)
  /-- The locks are those there were, and with them the one taken if it could not be given back. -/
  locks : ∃ ls, ls.Sublist s.locks ∧ (r.2.locks = ls ∨
    faults.release ≠ none ∧ ∃ b k, target = some b ∧ r.2.locks = ls ++ [e.lockOf b k])
  /-- The only locks that go are ones on the bundle aimed at that had expired. -/
  dropped : ∀ l ∈ s.locks, l ∉ r.2.locks → target = some l.bundle ∧
    ∃ k < e.settings.attempts, l.Expired (e.tries k) e.ttlMillis
  /-- Where nothing goes wrong, and everything reads back before and after, it comes to what is
  stated. -/
  faultless : faults = {} → readsBack s = true → readsBack run.2 = true → r = run

/-- What is done under a lock leaves the locks, and the records of repairs unless it commits one. -/
def Heeds {α : Type} (commits : Prop) (body : Store → Except Error (α × Store)) : Prop :=
  ∀ s a t, body s = .ok (a, t) → t.locks = s.locks ∧ (¬ commits → t.repairs = s.repairs)

theorem Aside.heeds {s t : Store} {commits : Prop} (h : Aside s t) :
    t.locks = s.locks ∧ (¬ commits → t.repairs = s.repairs) :=
  ⟨h.locks, fun _ => h.repairs⟩

namespace Engine

variable {α : Type} {e : Engine} {bundle : BundleId} {commits : Prop} {s : Store}
  {body : Store → Except Error (α × Store)}

theorem acquireFrom_repairs (e : Engine) (bundle : BundleId) (k left : Nat) (s : Store) :
    (e.acquireFrom bundle k left s).2.repairs = s.repairs := by
  induction left generalizing k s with
  | zero => rfl
  | succ left ih =>
    have htry : (s.tryLock bundle e.owner (e.tries k) e.ttlMillis).2.repairs = s.repairs := by
      unfold Store.tryLock Store.takeLock Store.insertLock Store.expire
      split <;> split <;> rfl
    unfold acquireFrom
    split
    next h => rw [h] at htry; exact htry
    next h => rw [h] at htry; rw [ih, htry]

theorem locked_repairs (hbody : Heeds commits body) (h : ¬ commits) :
    (e.locked bundle body s).2.repairs = s.repairs := by
  have hacquire := acquireFrom_repairs e bundle 0 e.settings.attempts s
  unfold locked acquire
  cases hrun : e.acquireFrom bundle 0 e.settings.attempts s with
  | mk got t =>
    rw [hrun] at hacquire
    cases got with
    | error err => exact hacquire
    | ok _ =>
      cases hb : body t with
      | error err =>
        simp only [hb]
        exact hacquire
      | ok p =>
        simp only [hb]
        exact ((hbody t p.1 p.2 hb).2 h).trans hacquire

theorem unlocked_repairs (hbody : Heeds commits body) (h : ¬ commits) :
    (unlocked body s).2.repairs = s.repairs := by
  unfold unlocked
  cases hb : body s with
  | error err => rfl
  | ok p => exact (hbody s p.1 p.2 hb).2 h

end Engine

namespace Sql

variable {α β : Type} {e : Engine} {bundle : BundleId} {commits : Prop} {s t : Store}

theorem unlock_run (owner : String) (faults : Faults) {x : Session} (hx : x.working = none) :
    reporting .store (unlock bundle owner) faults x = match faults.release with
      | some err => .error (.store err) x
      | none => .ok () { x with saved := x.saved.unlock bundle owner } := by
  obtain ⟨saved, working, n⟩ := x
  cases hx
  unfold reporting EStateM.adaptExcept unlock perform
  cases faults.release <;> rfl

end Sql

/-! ## Under a lock -/

/-- An engine holds the lock on a bundle, after tries on `s` that left `t` of it. -/
structure Engine.Holds (e : Engine) (bundle : BundleId) (i : Nat) (s t held : Store) : Prop where
  foreign : ∀ l ∈ s.locks, l.owner ≠ e.owner
  pruned : e.Pruned bundle s t
  eq : held = { t with locks := t.locks ++ [e.lockOf bundle i] }
  acquired : e.acquire bundle s = (.ok (), held)

namespace Engine.Holds

variable {α : Type} {e : Engine} {bundle : BundleId} {i : Nat} {s t u w held : Store}
  {body : Store → Except Error (α × Store)} {commits : Prop} {faults : Faults} {err : Error}

theorem locks (h : e.Holds bundle i s t held) : held.locks = t.locks ++ [e.lockOf bundle i] := by
  rw [h.eq]

theorem rows (h : e.Holds bundle i s t held) : held = { s with locks := held.locks } := by
  rw [h.eq, h.pruned.rows]

/-- Giving the lock back leaves those of others. -/
theorem unlock (h : e.Holds bundle i s t held) (hu : u.locks = held.locks) :
    u.unlock bundle e.owner = { u with locks := t.locks } := by
  have hkept : t.locks.filter (fun l => !(l.bundle == bundle && l.owner == e.owner)) = t.locks :=
    List.filter_eq_self.2 fun l hl => by simp [h.foreign l (h.pruned.locks.subset hl)]
  rw [Store.unlock, hu, h.locks, List.filter_append, hkept]
  simp [Engine.lockOf]

theorem unlock_held (h : e.Holds bundle i s t held) : held.unlock bundle e.owner = t := by
  rw [h.unlock rfl, h.eq]

theorem locked_ok (h : e.Holds bundle i s t held) {p : α × Store} (hp : body held = .ok p) :
    e.locked bundle body s = (.ok p.1, p.2.unlock bundle e.owner) := by
  rw [Engine.locked, h.acquired]
  simp only [hp]

theorem locked_error (h : e.Holds bundle i s t held) (herr : body held = .error err) :
    e.locked bundle body s = (.error err, t) := by
  rw [Engine.locked, h.acquired]
  simp only [herr, h.unlock_held]

/-- Whatever is done, the locks that are left are those that the tries left. -/
theorem leaves (h : e.Holds bundle i s t held)
    (hw : w.locks = t.locks ∨ faults.release ≠ none ∧ w.locks = held.locks) :
    (∃ ls, ls.Sublist s.locks ∧ (w.locks = ls ∨
      faults.release ≠ none ∧ ∃ b k, some bundle = some b ∧ w.locks = ls ++ [e.lockOf b k])) ∧
    ∀ l ∈ s.locks, l ∉ w.locks → some bundle = some l.bundle ∧
      ∃ k < e.settings.attempts, l.Expired (e.tries k) e.ttlMillis := by
  rw [h.locks] at hw
  refine ⟨⟨t.locks, h.pruned.locks, hw.imp_right fun hw => ⟨hw.1, bundle, i, rfl, hw.2⟩⟩,
    fun l hl hdropped => ?_⟩
  have ht : l ∉ t.locks := by
    rcases hw with hw | ⟨-, hw⟩
    · rwa [hw] at hdropped
    · exact fun hlt => hdropped (hw ▸ List.mem_append_left _ hlt)
  obtain ⟨hb, hexpired⟩ := h.pruned.dropped l hl ht
  exact ⟨congrArg some hb.symm, hexpired⟩

theorem done (h : e.Holds bundle i s t held) (hu : u.locks = held.locks) :
    AllOrNothing e (some bundle) faults s (.ok (), u.unlock bundle e.owner)
      (.ok (), u.unlock bundle e.owner) := by
  obtain ⟨hls, hdropped⟩ := h.leaves (w := u.unlock bundle e.owner) (.inl (by rw [h.unlock hu]))
  exact ⟨fun _ => rfl, fun hne => (hne rfl).elim, hls, hdropped, fun _ _ _ => rfl⟩

/-- What was carried out is carried out, even if a failure is reported behind it. -/
theorem done_late (h : e.Holds bundle i s t held) (hu : u.locks = held.locks)
    (hw : w = u.unlock bundle e.owner ∨ faults.release ≠ none ∧ w = u)
    (hcause : faults.release ≠ none ∨ faults.readBack ≠ none ∨ readsBack u = false) :
    AllOrNothing e (some bundle) faults s (.ok (), u.unlock bundle e.owner) (.error err, w) := by
  have hfree := h.unlock hu
  obtain ⟨hls, hdropped⟩ := h.leaves (w := w) <| hw.imp (fun hw => by rw [hw, hfree]) fun hw => by
    rw [hw.2]
    exact ⟨hw.1, hu⟩
  refine ⟨(by rintro ⟨⟩), fun _ => .inr ⟨rfl, .of_locks ?_, hcause⟩, hls, hdropped,
    fun hnone _ hgiven => ?_⟩
  · rcases hw with rfl | ⟨-, rfl⟩
    · rfl
    · rw [hfree]
  · subst hnone
    rcases hcause with hcause | hcause | hcause
    · exact (hcause rfl).elim
    · exact (hcause rfl).elim
    · exact (Bool.eq_false_iff.1 hcause hgiven).elim

theorem refused (h : e.Holds bundle i s t held) {run : Except Error Unit × Store}
    (hw : w = t ∨ faults.release ≠ none ∧ w = held)
    (hrun : faults = {} → readsBack s = true → readsBack run.2 = true → run = (.error err, t)) :
    AllOrNothing e (some bundle) faults s run (.error err, w) := by
  obtain ⟨hls, hdropped⟩ := h.leaves (w := w) <|
    hw.imp (congrArg Store.locks) fun hw => ⟨hw.1, congrArg Store.locks hw.2⟩
  refine ⟨(by rintro ⟨⟩), fun _ => .inl (.of_locks ?_), hls, hdropped,
    fun hnone hback hgiven => ?_⟩
  · rcases hw with rfl | ⟨-, rfl⟩
    · exact h.pruned.rows
    · exact h.rows
  · rw [hrun hnone hback hgiven]
    rcases hw with rfl | ⟨hfault, -⟩
    · rfl
    · exact (hfault (by rw [hnone])).elim

end Engine.Holds

namespace Sql

variable {α β : Type} {e : Engine} {bundle : BundleId} {commits : Prop} {s t : Store}

section Holding

variable {body : Store → Except Error (α × Store)} {c : Sql Error Unit} {i : Nat} {x : Session}
  {faults : Faults}

/-- What is done once the lock is taken, and given back or not. -/
theorem releasing_allOrNothing (hc : ∀ s, Carries s c ((body s).map (·.2)))
    (hbody : Heeds commits body) (h : e.Holds bundle i s t x.saved) (hx : x.working = none) :
    AllOrNothing e (some bundle) faults s (outcome (e.locked bundle body s))
      (result (releasing e bundle c faults x)) := by
  have hchain := hc x.saved faults x hx rfl
  unfold releasing
  cases hrun : c faults x with
  | ok _ y =>
    rw [hrun] at hchain
    obtain ⟨hy, hsaved⟩ := hchain
    obtain ⟨⟨a, u⟩, hu, rfl⟩ := map_eq_ok.1 hsaved
    have hlocks := (hbody _ _ _ hu).1
    rw [h.locked_ok hu]
    simp only
    rw [unlock_run _ _ hy]
    cases hrelease : faults.release with
    | none => exact h.done hlocks
    | some err =>
      have hfault : faults.release ≠ none := by simp [hrelease]
      exact h.done_late hlocks (.inr ⟨hfault, rfl⟩) (.inl hfault)
  | error err y =>
    obtain ⟨hy, hcases⟩ := (hc x.saved).failed hx hrun
    simp only
    rw [unlock_run _ _ hy]
    rcases hcases with ⟨hsaved, hfails⟩ | ⟨a, hu, hcause⟩
    · have hrefused : faults = {} → readsBack s = true →
          readsBack (outcome (e.locked bundle body s)).2 = true →
          outcome (e.locked bundle body s) = (.error err, t) := fun hnone hback hgiven => by
        have hheld : readsBack x.saved = true := by
          rw [h.rows]
          exact hback
        have herr := hfails hnone hheld fun p hp => by
          rwa [h.locked_ok hp] at hgiven
        rw [h.locked_error herr]
        rfl
      cases hrelease : faults.release with
      | none => exact h.refused (.inl (by rw [hsaved, h.unlock_held])) hrefused
      | some err' => exact h.refused (.inr ⟨by simp [hrelease], hsaved⟩) hrefused
    · have hlocks := (hbody _ _ _ hu).1
      rw [h.locked_ok hu]
      cases hrelease : faults.release with
      | none => exact h.done_late hlocks (.inl rfl) (.inr hcause)
      | some err' => exact h.done_late hlocks (.inr ⟨by simp [hrelease], rfl⟩) (.inr hcause)

theorem holding_allOrNothing (hc : ∀ s, Carries s c ((body s).map (·.2)))
    (hbody : Heeds commits body) (hforeign : ∀ l ∈ x.saved.locks, l.owner ≠ e.owner)
    (hx : x.working = none) :
    AllOrNothing e (some bundle) faults x.saved (outcome (e.locked bundle body x.saved))
      (result (holding e bundle c faults x)) := by
  have hacquire := acquireFrom_cases e bundle faults (Nat.zero_add e.settings.attempts).le hx
  unfold holding
  rw [bind_run]
  cases hrun : acquireFrom e bundle 0 e.settings.attempts faults x with
  | ok _ y =>
    rw [hrun] at hacquire
    obtain ⟨hy, hpure, i, t, hpruned, hsaved⟩ := hacquire
    exact releasing_allOrNothing hc hbody ⟨hforeign, hpruned, hsaved, hpure⟩ hy
  | error err y =>
    rw [hrun] at hacquire
    obtain ⟨hy, hpruned, hfails⟩ := hacquire
    refine ⟨nofun, fun _ => .inl (.of_locks hpruned.rows), ⟨_, hpruned.locks, .inl rfl⟩,
      fun l hl hdropped => ?_, fun hnone hback _ => ?_⟩
    · obtain ⟨hb, hexpired⟩ := hpruned.dropped l hl hdropped
      exact ⟨congrArg some hb.symm, hexpired⟩
    · rw [Engine.locked, Engine.acquire, hfails hnone hback]
      rfl

end Holding

section Top

variable {body : Store → Except Error (α × Store)} {c : Sql Error Unit} {x : Session}
  {faults : Faults} {target : Option BundleId} {run : Except Error Unit × Store}

theorem refused_allOrNothing {err : Error} (hrun : faults = {} → readsBack s = true →
    readsBack run.2 = true → run = (.error err, s)) :
    AllOrNothing e target faults s run (.error err, s) :=
  ⟨nofun, fun _ => .inl (.of_locks rfl), ⟨_, .refl _, .inl rfl⟩, fun _ h h' => (h' h).elim,
    fun hnone hback hgiven => (hrun hnone hback hgiven).symm⟩

theorem unlocked_allOrNothing (hc : ∀ s, Carries s c ((body s).map (·.2)))
    (hbody : Heeds commits body) (hx : x.working = none) :
    AllOrNothing e target faults x.saved (outcome (Engine.unlocked body x.saved))
      (result (c faults x)) := by
  unfold Engine.unlocked
  cases hrun : c faults x with
  | ok _ y =>
    have hchain := hc x.saved faults x hx rfl
    rw [hrun] at hchain
    obtain ⟨⟨a, u⟩, hu, rfl⟩ := map_eq_ok.1 hchain.2
    have hlocks := (hbody _ _ _ hu).1
    simp only [hu]
    exact ⟨fun _ => rfl, fun h => (h rfl).elim, ⟨_, .refl _, .inl hlocks⟩,
      fun _ h h' => (h' (hlocks ▸ h)).elim, fun _ _ _ => rfl⟩
  | error err y =>
    obtain ⟨-, ⟨hsaved, hfails⟩ | ⟨a, hu, hcause⟩⟩ := (hc x.saved).failed hx hrun
    · simp only [result, hsaved]
      refine refused_allOrNothing fun hnone hback hgiven => ?_
      have herr := hfails hnone hback fun p hp => by
        simp only [hp] at hgiven
        exact hgiven
      rw [herr]
      rfl
    · have hlocks := (hbody _ _ _ hu).1
      simp only [hu]
      refine ⟨nofun, fun _ => .inr ⟨rfl, .of_locks rfl, .inr hcause⟩, ⟨_, .refl _, .inl hlocks⟩,
        fun _ h h' => (h' (hlocks ▸ h)).elim, fun hnone _ hgiven => ?_⟩
      subst hnone
      rcases hcause with h | h
      · exact (h rfl).elim
      · exact (Bool.eq_false_iff.1 h hgiven).elim

/-- Something is read before a lock is taken. -/
theorem look_allOrNothing [Dated β] {read : Store → β} {f : Store → Except Error α}
    {k : α → Sql Error Unit} (hread : ∀ s, readsBack s = true → readsBack (read s) = true)
    (hx : x.working = none) (hfail : ∀ err, f x.saved = .error err → run = (.error err, x.saved))
    (hk : ∀ a y, f x.saved = .ok a → y.working = none → y.saved = x.saved →
      AllOrNothing e target faults x.saved run (result (k a faults y))) :
    AllOrNothing e target faults x.saved run (result ((look read f >>= k) faults x)) := by
  have hlook := (atomic_look f hread).read_cases faults hx
  rw [bind_run]
  cases hrun : look read f faults x with
  | ok a y =>
    rw [hrun] at hlook
    exact hk a y hlook.2.2 hlook.1 hlook.2.1
  | error err y =>
    rw [hrun] at hlook
    obtain ⟨hy, hsaved, hfails⟩ := hlook
    simp only [result, hsaved]
    exact refused_allOrNothing fun hnone hback _ => hfail err (hfails hnone hback)

end Top

end Sql

/-! ## Operations -/

/-- The same, together with what becomes of the records of repairs. -/
structure Accounted (e : Engine) (target : Option BundleId) (commits : Prop) (faults : Faults)
    (s : Store) (run r : Except Error Unit × Store) : Prop
    extends AllOrNothing e target faults s run r where
  repairs : ¬ commits → run.2.repairs = s.repairs

theorem Accounted.mono {e : Engine} {target : Option BundleId} {commits commits' : Prop}
    {faults : Faults} {s : Store} {run r : Except Error Unit × Store}
    (h : Accounted e target commits faults s run r) (hc : commits → commits') :
    Accounted e target commits' faults s run r :=
  ⟨h.toAllOrNothing, fun hno => h.repairs fun hyes => hno (hc hyes)⟩

namespace Sql

variable {α β : Type} {e : Engine} {bundle : BundleId} {commits : Prop}
  {body : Store → Except Error (α × Store)} {c : Sql Error Unit} {x : Session} {faults : Faults}
  {target : Option BundleId} {run : Except Error Unit × Store}

theorem holding_accounted (hforeign : ∀ l ∈ x.saved.locks, l.owner ≠ e.owner)
    (hx : x.working = none) (hbody : Heeds commits body)
    (hc : ∀ s, Carries s c ((body s).map (·.2))) :
    Accounted e (some bundle) commits faults x.saved (outcome (e.locked bundle body x.saved))
      (result (holding e bundle c faults x)) :=
  ⟨holding_allOrNothing hc hbody hforeign hx, Engine.locked_repairs hbody⟩

theorem unlocked_accounted (hx : x.working = none) (hbody : Heeds commits body)
    (hc : ∀ s, Carries s c ((body s).map (·.2))) :
    Accounted e target commits faults x.saved (outcome (Engine.unlocked body x.saved))
      (result (c faults x)) :=
  ⟨unlocked_allOrNothing hc hbody hx, Engine.unlocked_repairs hbody⟩

theorem look_accounted [Dated β] {read : Store → β} {f : Store → Except Error α}
    {k : α → Sql Error Unit} (hread : ∀ s, readsBack s = true → readsBack (read s) = true)
    (hx : x.working = none) (hfail : ∀ err, f x.saved = .error err → run = (.error err, x.saved))
    (hk : ∀ a y, f x.saved = .ok a → y.working = none → y.saved = x.saved →
      Accounted e target commits faults x.saved run (result (k a faults y))) :
    Accounted e target commits faults x.saved run (result ((look read f >>= k) faults x)) := by
  refine ⟨look_allOrNothing hread hx hfail fun a y hf hy hsaved =>
    (hk a y hf hy hsaved).toAllOrNothing, fun h => ?_⟩
  cases hf : f x.saved with
  | error err => rw [hfail err hf]
  | ok a => exact (hk a x hf hx rfl).repairs h

/-- What is done under the lock of the bundle of a subscription. -/
theorem holdingFor_accounted {i : SubscriptionId}
    (hforeign : ∀ l ∈ x.saved.locks, l.owner ≠ e.owner) (hx : x.working = none)
    (hbody : Heeds commits body) (hc : ∀ s, Carries s c ((body s).map (·.2)))
    (hrun : run = outcome (match Engine.subscription x.saved i with
      | .error err => (.error err, x.saved)
      | .ok sub => e.locked sub.bundle body x.saved)) :
    Accounted e ((x.saved.subscription? i).map (·.bundle)) commits faults x.saved run
      (result (holdingFor e i c faults x)) := by
  refine look_accounted (fun s hs => Store.readsBack_subscription? hs i) hx (fun err herr => ?_)
    fun sub y hsub hy hsaved => ?_
  · rw [hrun, herr]
    rfl
  · rw [hrun, hsub, Engine.subscription_eq_ok.1 hsub, ← hsaved]
    rw [← hsaved] at hforeign
    exact holding_accounted hforeign hy hbody hc

end Sql

end Tenure
