import Tenure.Run

/-!
# Locks exclude each other

The lock on a bundle is a row, and who finds it there waits. It goes when its owner gives it back,
or when somebody asks for it with a time to live that it has outlasted. Owners bring clocks of their
own, which may disagree and go back, so what counts is the reading that a call brings along.

A call looks at the rows of its bundle alone and changes no others (`LockCall.serve`). So the calls
on one bundle are answered as if there were no other (`answers_filter`), and what is left to show is
about one row: no call adds a second one (`length_serve_le`), and a lock stays, and lets no acquire
through, up to a call that ends it (`serve_of_not_ends`).

**Theorem (`locks_exclude`).** Whatever calls are made from a store without locks on, each bundle
has at most one; it goes to whom asks if the one that is there is past the time to live, and from
then on all others are turned away until it is released or outlasted.
-/

namespace Tenure

/-! ## Calls -/

/-- A call on the locks: to take the one on a bundle, from whoever has held it for more than `ttl`
nanoseconds, or to give it back. -/
inductive LockCall
  | acquire (bundle : BundleId) (owner : String) (now : Instant) (ttl : Nat)
  | release (bundle : BundleId) (owner : String)
  deriving DecidableEq

/-- The lock was taken before the last `ttl` nanoseconds up to `now` began, to the millisecond. If
they began before the calendar does, it was not. -/
def Lock.isOverdue (l : Lock) (now : Instant) (ttl : Nat) : Bool :=
  (now.shift? (-ttl)).any (l.acquiredAt < ·.millis)

theorem Lock.isOverdue_iff {l : Lock} {now : Instant} {ttl : Nat} :
    l.isOverdue now ttl = true ↔ ∃ cutoff,
      now.shift? (-ttl) = some cutoff ∧ l.acquiredAt < cutoff.millis := by
  simp [isOverdue, Option.any_eq_true]

namespace LockCall

def bundle : LockCall → BundleId
  | acquire b .. | release b _ => b

/-- What a call answers, which is whether it takes the lock, and the store after it. -/
def run : LockCall → Store → Option Bool × Store
  | acquire b owner now ttl, s => ((s.takeLock b owner now ttl).1, (s.takeLock b owner now ttl).2)
  | release b owner, s => (none, s.unlock b owner)

/-- The store after calls made one after the other. -/
def afterAll (calls : List LockCall) (s : Store) : Store := calls.foldl (fun s c => (c.run s).2) s

/-- Calls made one after the other, with their answers. -/
def answers : List LockCall → Store → List (LockCall × Option Bool)
  | [], _ => []
  | c :: cs, s => (c, (c.run s).1) :: answers cs (c.run s).2

/-- The call gives the lock back for its owner, or takes it over. -/
def ends (l : Lock) : LockCall → Bool
  | acquire b _ now ttl => b == l.bundle && l.isOverdue now ttl
  | release b owner => b == l.bundle && owner == l.owner

/-! ## Calls on one bundle -/

/-- What a call answers and leaves if these are the locks on its bundle. -/
def serve : LockCall → List Lock → Option Bool × List Lock
  | acquire b owner now ttl, held =>
    if held.all (·.isOverdue now ttl) then (some true, [⟨b, owner, now.millis⟩])
    else (some false, held.filter fun l => !l.isOverdue now ttl)
  | release _ owner, held => (none, held.filter (·.owner != owner))

end LockCall

namespace Store

variable {s : Store} {b b' : BundleId} {owner : String} {now : Instant} {ttl : Nat}

/-- The locks on a bundle. -/
def locksOn (s : Store) (b : BundleId) : List Lock := s.locks.filter (·.bundle == b)

/-- Drop those of the locks on a bundle that are to go. -/
def dropLocks (s : Store) (b : BundleId) (gone : Lock → Bool) : Store :=
  { s with locks := s.locks.filter fun l => !(l.bundle == b && gone l) }

theorem mem_locksOn {l : Lock} : l ∈ s.locksOn b ↔ l ∈ s.locks ∧ l.bundle = b := by
  simp [locksOn]

theorem locksOn_append (s : Store) (l : Lock) (b : BundleId) :
    { s with locks := s.locks ++ [l] }.locksOn b =
      s.locksOn b ++ if l.bundle = b then [l] else [] := by
  simp only [locksOn, List.filter_append]
  by_cases h : l.bundle = b <;> simp [h]

theorem expire_eq (s : Store) (b : BundleId) (now : Instant) (ttl : Nat) :
    s.expire b now ttl = s.dropLocks b (·.isOverdue now ttl) := by
  unfold expire dropLocks Lock.isOverdue
  cases now.shift? (-ttl) with
  | none => simp [List.filter_eq_self.2]
  | some cutoff => rfl

theorem unlock_eq (s : Store) (b : BundleId) (owner : String) :
    s.unlock b owner = s.dropLocks b (·.owner == owner) := rfl

theorem locksOn_dropLocks (s : Store) (b b' : BundleId) (gone : Lock → Bool) :
    (s.dropLocks b gone).locksOn b' =
      if b = b' then (s.locksOn b').filter (!gone ·) else s.locksOn b' := by
  simp only [locksOn, dropLocks, List.filter_filter]
  by_cases h : b = b'
  · rw [if_pos h]
    refine List.filter_congr fun l _ => ?_
    cases hl : l.bundle == b' <;> simp [h, hl]
  · rw [if_neg h]
    refine List.filter_congr fun l _ => ?_
    by_cases hl : l.bundle = b' <;> simp [hl, Ne.symm h]

theorem dropLocks_eq_self {gone : Lock → Bool} (h : ∀ l ∈ s.locksOn b, gone l = false) :
    s.dropLocks b gone = s := by
  have hlocks : (s.locks.filter fun l => !(l.bundle == b && gone l)) = s.locks := by
    refine List.filter_eq_self.2 fun l hl => ?_
    by_cases hb : l.bundle = b
    · simp [h l (mem_locksOn.2 ⟨hl, hb⟩)]
    · simp [hb]
  rw [dropLocks, hlocks]

theorem any_expire : (s.expire b now ttl).locks.any (·.bundle == b) =
    !(s.locksOn b).all (·.isOverdue now ttl) := by
  rw [expire_eq, dropLocks, locksOn, List.all_filter, List.any_filter, Bool.eq_iff_iff]
  simp only [List.any_eq_true, Bool.not_eq_true', List.all_eq_false, Bool.and_eq_true,
    Bool.or_eq_true, beq_iff_eq]
  refine exists_congr fun l => and_congr_right fun _ => ?_
  by_cases hb : l.bundle = b <;> simp [hb]

theorem takeLock_eq (s : Store) (b : BundleId) (owner : String) (now : Instant) (ttl : Nat) :
    s.takeLock b owner now ttl =
      if (s.locksOn b).all (·.isOverdue now ttl) then
        (true, { s.expire b now ttl with
          locks := (s.expire b now ttl).locks ++ [⟨b, owner, now.millis⟩] })
      else (false, s.expire b now ttl) := by
  unfold takeLock insertLock
  simp only [any_expire]
  by_cases h : (s.locksOn b).all (·.isOverdue now ttl) = true
  · simp [h, expire_eq, dropLocks]
  · simp [h]

theorem takeLock_fst (s : Store) (b : BundleId) (owner : String) (now : Instant) (ttl : Nat) :
    (s.takeLock b owner now ttl).1 = (s.locksOn b).all (·.isOverdue now ttl) := by
  rw [takeLock_eq]
  split <;> simp_all

end Store

namespace LockCall

variable {s t : Store} {b : BundleId} {c : LockCall} {calls : List LockCall} {l : Lock}

theorem exists_run_eq (c : LockCall) (s : Store) : ∃ locks, (c.run s).2 = { s with locks } := by
  cases c with
  | release b owner => exact ⟨_, rfl⟩
  | acquire b owner now ttl =>
    simp only [run, Store.takeLock_eq, Store.expire_eq]
    split <;> exact ⟨_, rfl⟩

/-- A call answers by the locks on its bundle, and changes no others. -/
theorem run_spec (c : LockCall) (s : Store) (b : BundleId) :
    (c.run s).1 = (c.serve (s.locksOn c.bundle)).1 ∧
      (c.run s).2.locksOn b = if c.bundle = b then (c.serve (s.locksOn b)).2 else s.locksOn b := by
  cases c with
  | release b' owner =>
    refine ⟨rfl, ?_⟩
    rw [run, Store.unlock_eq, Store.locksOn_dropLocks]
    rfl
  | acquire b' owner now ttl =>
    have hrest : (s.expire b' now ttl).locksOn b = if b' = b then
        (s.locksOn b).filter fun l => !l.isOverdue now ttl else s.locksOn b := by
      rw [Store.expire_eq]
      exact s.locksOn_dropLocks b' b (·.isOverdue now ttl)
    simp only [run, serve, bundle, Store.takeLock_eq]
    by_cases hall : (s.locksOn b').all (·.isOverdue now ttl) = true
    · refine ⟨by simp [hall], ?_⟩
      simp only [hall, if_true, Store.locksOn_append, hrest]
      split
      · next h =>
        subst h
        have hgone : (s.locksOn b').filter (fun l => !l.isOverdue now ttl) = [] := by
          simpa [List.filter_eq_nil_iff] using hall
        simp [hgone, hall]
      · next h => simp [h]
    · refine ⟨by simp [hall], ?_⟩
      simp only [hall, Bool.false_eq_true, if_false, hrest]
      split
      · next h => subst h; simp [hall]
      · next h => simp [h]

/-! ## Runs -/

theorem length_serve_le {held : List Lock} (c : LockCall) (h : held.length ≤ 1) :
    (c.serve held).2.length ≤ 1 := by
  cases c with
  | release b owner => exact Nat.le_trans (List.length_filter_le ..) h
  | acquire b owner now ttl =>
    simp only [serve]
    split
    · exact Nat.le_refl 1
    · exact Nat.le_trans (List.length_filter_le ..) h

/-- A lock stays through a call that does not end it, and lets no acquire through. -/
theorem serve_of_not_ends (hc : c.bundle = l.bundle) (hl : c.ends l = false) :
    (c.serve [l]).2 = [l] ∧ (c.serve [l]).1 ≠ some true := by
  cases c with
  | release b owner =>
    have howner : owner ≠ l.owner := by simpa [ends, show b = l.bundle from hc] using hl
    simp [serve, Ne.symm howner]
  | acquire b owner now ttl =>
    have hnot : l.isOverdue now ttl = false := by simpa [ends, show b = l.bundle from hc] using hl
    simp [serve, hnot]

theorem length_afterAll_le (hs : ∀ b, (s.locksOn b).length ≤ 1) (calls : List LockCall) :
    ∀ b, ((afterAll calls s).locksOn b).length ≤ 1 := by
  induction calls generalizing s with
  | nil => exact hs
  | cons c cs ih =>
    refine ih fun b => ?_
    rw [(c.run_spec s b).2]
    split
    · exact c.length_serve_le (hs b)
    · exact hs b

theorem afterAll_eq (calls : List LockCall) (s : Store) :
    afterAll calls s = { s with locks := (afterAll calls s).locks } := by
  suffices ∃ locks, afterAll calls s = { s with locks } by
    obtain ⟨locks, h⟩ := this
    rw [h]
  induction calls generalizing s with
  | nil => exact ⟨s.locks, rfl⟩
  | cons c cs ih =>
    obtain ⟨locks, hc⟩ := c.exists_run_eq s
    obtain ⟨locks', hcs⟩ := ih (c.run s).2
    exact ⟨locks', hcs.trans (by rw [hc])⟩

/-- A lock stays through calls that do not end it, and lets no acquire through. -/
theorem afterAll_of_not_ends (hl : s.locksOn l.bundle = [l])
    (hcalls : ∀ c ∈ calls, c.ends l = false) :
    (afterAll calls s).locksOn l.bundle = [l] ∧
      ∀ a ∈ answers calls s, a.1.bundle = l.bundle → a.2 ≠ some true := by
  induction calls generalizing s with
  | nil => exact ⟨hl, fun _ h => absurd h List.not_mem_nil⟩
  | cons c cs ih =>
    obtain ⟨hc, hcs⟩ := List.forall_mem_cons.1 hcalls
    have hstep : (c.run s).2.locksOn l.bundle = [l] := by
      rw [(c.run_spec s l.bundle).2, hl]
      split
      · next h => exact (serve_of_not_ends h hc).1
      · rfl
    obtain ⟨hrow, hanswers⟩ := ih hstep hcs
    refine ⟨hrow, List.forall_mem_cons.2 ⟨fun h => ?_, hanswers⟩⟩
    rw [(c.run_spec s c.bundle).1, show c.bundle = l.bundle from h, hl]
    exact (serve_of_not_ends h hc).2

/-- The calls on a bundle are answered, and leave its locks, as if there were no others. -/
theorem answers_filter {s t : Store} (h : s.locksOn b = t.locksOn b) (calls : List LockCall) :
    (answers calls s).filter (·.1.bundle == b) = answers (calls.filter (·.bundle == b)) t ∧
      (afterAll calls s).locksOn b = (afterAll (calls.filter (·.bundle == b)) t).locksOn b := by
  induction calls generalizing s t with
  | nil => exact ⟨rfl, h⟩
  | cons c cs ih =>
    by_cases hc : c.bundle = b
    · have hstep : (c.run s).2.locksOn b = (c.run t).2.locksOn b := by
        rw [(c.run_spec s b).2, (c.run_spec t b).2, h]
      obtain ⟨hanswers, hrows⟩ := ih hstep
      have hanswer : (c.run s).1 = (c.run t).1 := by
        rw [(c.run_spec s b).1, (c.run_spec t b).1, hc, h]
      simp only [answers, afterAll, List.filter_cons, hc, beq_self_eq_true, if_true,
        List.foldl_cons, hanswer, hanswers, true_and]
      exact hrows
    · have hstep : (c.run s).2.locksOn b = t.locksOn b := by
        rw [(c.run_spec s b).2, if_neg hc, h]
      simpa [answers, afterAll, List.filter_cons, hc] using ih hstep

/-! ## Exclusion -/

/-- What the locks of a store exclude. -/
structure Excludes (t : Store) : Prop where
  /-- No bundle has two. -/
  one (b : BundleId) : (t.locksOn b).length ≤ 1
  /-- The lock is there to be taken if the one that was is overdue, -/
  taken_iff (b : BundleId) (owner : String) (now : Instant) (ttl : Nat) :
    (t.takeLock b owner now ttl).1 = true ↔ ∀ l ∈ t.locksOn b, ∃ cutoff,
      now.shift? (-ttl) = some cutoff ∧ l.acquiredAt < cutoff.millis
  /-- and whoever is turned away leaves everything as it was. -/
  turned_away (b : BundleId) (owner : String) (now : Instant) (ttl : Nat) :
    (t.takeLock b owner now ttl).1 = false → (t.takeLock b owner now ttl).2 = t
  /-- Whoever takes it keeps everybody else out, until a call ends that. -/
  keeps_out (b : BundleId) (owner : String) (now : Instant) (ttl : Nat) (later : List LockCall) :
    (t.takeLock b owner now ttl).1 = true →
    (∀ c ∈ later, c.ends ⟨b, owner, now.millis⟩ = false) →
    (afterAll later (t.takeLock b owner now ttl).2).locksOn b = [⟨b, owner, now.millis⟩] ∧
      ∀ a ∈ answers later (t.takeLock b owner now ttl).2, a.1.bundle = b → a.2 ≠ some true
  /-- It is given back by its owner, -/
  given_back (b : BundleId) (owner : String) :
    (∀ l ∈ t.locksOn b, l.owner = owner) → (t.unlock b owner).locksOn b = []
  /-- and by nobody else. -/
  kept (b : BundleId) (owner : String) :
    (∀ l ∈ t.locksOn b, l.owner ≠ owner) → t.unlock b owner = t

theorem excludes (ht : ∀ b, (t.locksOn b).length ≤ 1) : Excludes t where
  one := ht
  taken_iff b owner now ttl := by
    simp only [Store.takeLock_fst, List.all_eq_true, Lock.isOverdue_iff]
  turned_away b owner now ttl hfail := by
    rw [Store.takeLock_eq] at hfail ⊢
    split at hfail
    · cases hfail
    · next h =>
      rw [if_neg h, Store.expire_eq]
      have hone := ht b
      rcases hrows : t.locksOn b with _ | ⟨l, _ | ⟨l', rest⟩⟩
      · simp [hrows] at h
      · have hkeep : l.isOverdue now ttl = false := by simpa [hrows] using h
        exact Store.dropLocks_eq_self (by simp [hrows, hkeep])
      · simp [hrows] at hone
  keeps_out b owner now ttl later htaken hlater := by
    refine afterAll_of_not_ends ?_ hlater
    have hrun := (acquire b owner now ttl).run_spec t b
    have hall : (t.locksOn b).all (·.isOverdue now ttl) = true := by
      rwa [← t.takeLock_fst b owner]
    simpa [run, serve, bundle, hall] using hrun.2
  given_back b owner h := by
    have hrun := ((release b owner).run_spec t b).2
    rw [bundle, if_pos rfl] at hrun
    refine hrun.trans (List.filter_eq_nil_iff.2 fun l hl => ?_)
    simp [h l hl]
  kept b owner h := by
    rw [Store.unlock_eq]
    exact Store.dropLocks_eq_self fun l hl => by simpa using h l hl

/-- **Locks exclude each other.** After any calls on locks, from a store that has one for a bundle
at most, that is still so: a lock is taken from whoever has had it for longer than the time to live,
and from then on kept. Calls on one bundle are answered as if there were no others, and nothing but
locks changes. -/
theorem locks_exclude (hs : ∀ b, (s.locksOn b).length ≤ 1) (calls : List LockCall) :
    Excludes (afterAll calls s) ∧
      afterAll calls s = { s with locks := (afterAll calls s).locks } ∧
      ∀ b, (answers calls s).filter (·.1.bundle == b) = answers (calls.filter (·.bundle == b)) s ∧
        (afterAll calls s).locksOn b = (afterAll (calls.filter (·.bundle == b)) s).locksOn b :=
  ⟨excludes (length_afterAll_le hs calls), afterAll_eq calls s, fun _ => answers_filter rfl calls⟩

/-- A lock that its owner has kept for a day is taken over; giving it back is too late then. -/
theorem locks_exclude_sample :
    let minute := 60000000000
    let calls := [acquire ⟨1⟩ "a" (Sample.day 0) minute, acquire ⟨1⟩ "b" (Sample.day 1) minute,
      release ⟨1⟩ "a", acquire ⟨1⟩ "a" (Sample.day 0) minute]
    (answers calls {}).map (·.2) = [some true, some true, none, some false] ∧
      (afterAll calls {}).locksOn ⟨1⟩ = [⟨⟨1⟩, "b", (Sample.day 1).millis⟩] ∧
      Excludes (afterAll calls {}) :=
  ⟨by decide +kernel, by decide +kernel, (locks_exclude (s := {}) (fun _ => Nat.zero_le 1) _).1⟩

end LockCall

end Tenure
