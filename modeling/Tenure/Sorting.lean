/-!
# Stable sorting

Events, cases and proposals are put in order by a key that may tie, and ties keep the order in
which the entries came. Insertion sort does this in a few lines of structural recursion, so a
sorted list can also be computed by reduction.

The facts that matter are that nothing is lost (`sortBy_perm`) and that, for a total and
transitive comparison, the result is in order (`pairwise_sortBy`) and the sort is stable, so that
picking entries before sorting or after it makes no difference (`filter_sortBy`). In a list that is
in order bisection finds the border between those that pass and those that do not (`bisect_append`).
-/

namespace Tenure

variable {α : Type _}

/-- Put `x` in front of the first entry that it may precede. -/
def insertBy (le : α → α → Bool) (x : α) : List α → List α
  | [] => [x]
  | y :: ys => if le x y then x :: y :: ys else y :: insertBy le x ys

/-- Sort by `le`; entries that tie keep their order. -/
def sortBy (le : α → α → Bool) : List α → List α
  | [] => []
  | x :: xs => insertBy le x (sortBy le xs)

/-! ## Bisection -/

/-- Halve the range of `size` entries from `base` on until one is left, and keep to the upper half
where its first entry passes. `steps` bounds the halvings. -/
def bisectFrom (p : α → Bool) (xs : List α) : (steps base size : Nat) → Nat
  | 0, base, _ => base
  | steps + 1, base, size =>
    if size ≤ 1 then base
    else
      let middle := base + size / 2
      bisectFrom p xs steps (if xs[middle]?.any p then middle else base) (size - size / 2)

/-- The number of entries at the front that pass, found by bisection. The entries that pass are
expected to come first. -/
def bisect (p : α → Bool) (xs : List α) : Nat :=
  let base := bisectFrom p xs xs.length 0 xs.length
  if xs[base]?.any p then base + 1 else base

/-! ## The border is found -/

/-- If entries that pass come first, they make up the front. -/
theorem filter_append_filter_not {p : α → Bool} {xs : List α}
    (h : xs.Pairwise fun a b => p b = true → p a = true) :
    xs.filter p ++ xs.filter (!p ·) = xs := by
  induction xs with
  | nil => rfl
  | cons x xs ih =>
    obtain ⟨hx, hxs⟩ := List.pairwise_cons.1 h
    by_cases hp : p x = true
    · simp [hp, ih hxs]
    · have hnone : xs.filter p = [] :=
        List.filter_eq_nil_iff.2 fun y hy hpass => hp (hx y hy hpass)
      have hrest := ih hxs
      rw [hnone, List.nil_append] at hrest
      simp [hp, hnone, hrest]

section Bisection

variable {p : α → Bool} {xs : List α} {border : Nat}

/-- A range that reaches from before the border up to it is narrowed down to an entry beside it. -/
theorem bisectFrom_beside (hp : ∀ i, xs[i]?.any p = decide (i < border))
    {steps base size : Nat} (hsteps : size ≤ steps) (hbase : base = 0 ∨ base < border)
    (hsize : border ≤ base + size) :
    (bisectFrom p xs steps base size = 0 ∨ bisectFrom p xs steps base size < border) ∧
      border ≤ bisectFrom p xs steps base size + 1 := by
  induction steps generalizing base size with
  | zero => exact ⟨hbase, by simp only [bisectFrom]; omega⟩
  | succ steps ih =>
    simp only [bisectFrom, hp]
    split
    · exact ⟨hbase, by omega⟩
    · by_cases hmiddle : base + size / 2 < border
      · rw [if_pos (decide_eq_true hmiddle)]
        exact ih (by omega) (.inr hmiddle) (by omega)
      · rw [if_neg (by simpa using hmiddle)]
        exact ih (by omega) hbase (by omega)

theorem bisect_eq (hp : ∀ i, xs[i]?.any p = decide (i < border)) (hborder : border ≤ xs.length) :
    bisect p xs = border := by
  have hfrom : 0 = 0 ∨ 0 < border := .inl rfl
  obtain ⟨hbase, hnext⟩ := bisectFrom_beside hp (Nat.le_refl xs.length) hfrom (by omega)
  simp only [bisect, hp, decide_eq_true_eq]
  split <;> omega

theorem bisect_append {front back : List α} (hfront : ∀ x ∈ front, p x = true)
    (hback : ∀ x ∈ back, p x = false) : bisect p (front ++ back) = front.length := by
  refine bisect_eq (fun i => ?_) (by simp)
  rw [List.getElem?_append]
  split
  next hi => simp [hfront _ (List.getElem_mem hi), hi]
  next hi =>
    cases hx : back[i - front.length]? with
    | none => simp [hi]
    | some x => simp [hi, hback x (List.mem_of_getElem? hx)]

end Bisection

/-! ## Nothing is lost -/

theorem insertBy_perm (le : α → α → Bool) (x : α) (ys : List α) :
    (insertBy le x ys).Perm (x :: ys) := by
  induction ys with
  | nil => exact .refl _
  | cons y ys ih =>
    unfold insertBy
    split
    · exact .refl _
    · exact (ih.cons y).trans (.swap x y ys)

theorem sortBy_perm (le : α → α → Bool) (xs : List α) : (sortBy le xs).Perm xs := by
  induction xs with
  | nil => exact .refl _
  | cons x xs ih => exact (insertBy_perm le x _).trans (ih.cons x)

@[simp] theorem mem_sortBy {le : α → α → Bool} {xs : List α} {a : α} :
    a ∈ sortBy le xs ↔ a ∈ xs :=
  (sortBy_perm le xs).mem_iff

@[simp] theorem length_sortBy (le : α → α → Bool) (xs : List α) :
    (sortBy le xs).length = xs.length :=
  (sortBy_perm le xs).length_eq

/-! ## The result is in order -/

theorem pairwise_insertBy {le : α → α → Bool}
    (total : ∀ a b, le a b = true ∨ le b a = true)
    (trans : ∀ a b c, le a b = true → le b c = true → le a c = true)
    (x : α) {ys : List α} (h : ys.Pairwise (fun a b => le a b = true)) :
    (insertBy le x ys).Pairwise (fun a b => le a b = true) := by
  induction ys with
  | nil => simp [insertBy]
  | cons y ys ih =>
    obtain ⟨hy, hys⟩ := List.pairwise_cons.1 h
    unfold insertBy
    split
    next hxy =>
      refine List.pairwise_cons.2 ⟨fun a ha => ?_, h⟩
      rcases List.mem_cons.1 ha with rfl | ha
      · exact hxy
      · exact trans _ _ _ hxy (hy a ha)
    next hxy =>
      have hyx : le y x = true := (total x y).resolve_left hxy
      refine List.pairwise_cons.2 ⟨fun a ha => ?_, ih hys⟩
      rcases List.mem_cons.1 ((insertBy_perm le x ys).mem_iff.1 ha) with rfl | ha
      · exact hyx
      · exact hy a ha

theorem pairwise_sortBy {le : α → α → Bool}
    (total : ∀ a b, le a b = true ∨ le b a = true)
    (trans : ∀ a b c, le a b = true → le b c = true → le a c = true) (xs : List α) :
    (sortBy le xs).Pairwise (fun a b => le a b = true) := by
  induction xs with
  | nil => exact .nil
  | cons x xs ih => exact pairwise_insertBy total trans x ih

theorem pairwise_insertBy_ties {le : α → α → Bool} {R : α → α → Prop} {x : α} {ys : List α}
    (hx : ∀ y ∈ ys, R x y) (h : ys.Pairwise fun a b => le b a = true → R a b) :
    (insertBy le x ys).Pairwise fun a b => le b a = true → R a b := by
  induction ys with
  | nil => exact List.pairwise_singleton ..
  | cons y ys ih =>
    obtain ⟨hy, hys⟩ := List.pairwise_cons.1 h
    obtain ⟨hxy, hx⟩ := List.forall_mem_cons.1 hx
    simp only [insertBy]
    split
    · exact List.pairwise_cons.2 ⟨List.forall_mem_cons.2 ⟨fun _ => hxy, fun z hz _ => hx z hz⟩, h⟩
    next hle =>
      refine List.pairwise_cons.2 ⟨fun z hz => ?_, ih hx hys⟩
      rcases List.mem_cons.1 ((insertBy_perm le x ys).mem_iff.1 hz) with rfl | hz
      · exact fun h => absurd h hle
      · exact hy z hz

theorem pairwise_sortBy_ties {le : α → α → Bool} {R : α → α → Prop} {xs : List α}
    (h : xs.Pairwise R) : (sortBy le xs).Pairwise fun a b => le b a = true → R a b := by
  induction h with
  | nil => exact .nil
  | @cons x xs hx _ ih =>
    exact pairwise_insertBy_ties (fun y hy => hx y ((sortBy_perm le xs).mem_iff.1 hy)) ih

/-- Sorting by what entries stand for sorts what they stand for. -/
theorem map_sortBy {β : Type _} (f : β → α) (le : α → α → Bool) (xs : List β) :
    (sortBy (fun a b => le (f a) (f b)) xs).map f = sortBy le (xs.map f) := by
  have hinsert (x : β) (ys : List β) :
      (insertBy (fun a b => le (f a) (f b)) x ys).map f = insertBy le (f x) (ys.map f) := by
    induction ys with
    | nil => rfl
    | cons y ys ih =>
      simp only [insertBy, List.map_cons]
      split
      · rfl
      · rw [List.map_cons, ih]
  induction xs with
  | nil => rfl
  | cons x xs ih => rw [sortBy, hinsert, ih, List.map_cons, sortBy]

theorem sortBy_of_pairwise {le : α → α → Bool} {xs : List α}
    (h : xs.Pairwise (fun a b => le a b = true)) : sortBy le xs = xs := by
  induction xs with
  | nil => rfl
  | cons x xs ih =>
    obtain ⟨hx, hxs⟩ := List.pairwise_cons.1 h
    rw [sortBy, ih hxs]
    cases xs with
    | nil => rfl
    | cons y ys => simp [insertBy, hx y (by simp)]

/-! ## Ties keep their order -/

theorem filter_insertBy {le : α → α → Bool}
    (trans : ∀ a b c, le a b = true → le b c = true → le a c = true) (p : α → Bool)
    (x : α) {ys : List α} (h : ys.Pairwise (fun a b => le a b = true)) :
    (insertBy le x ys).filter p =
      if p x then insertBy le x (ys.filter p) else ys.filter p := by
  induction ys with
  | nil => by_cases hx : p x <;> simp [insertBy, hx]
  | cons y ys ih =>
    obtain ⟨hy, hys⟩ := List.pairwise_cons.1 h
    by_cases hxy : le x y = true
    · have hfront : insertBy le x ((y :: ys).filter p) = x :: (y :: ys).filter p := by
        cases hz : (y :: ys).filter p with
        | nil => rfl
        | cons z zs =>
          have hmem : z ∈ (y :: ys).filter p := by simp [hz]
          have hxz : le x z = true := by
            rcases List.mem_cons.1 (List.mem_filter.1 hmem).1 with rfl | hz
            · exact hxy
            · exact trans _ _ _ hxy (hy z hz)
          simp [insertBy, hxz]
      rw [hfront, insertBy, if_pos hxy, List.filter_cons]
    · rw [insertBy, if_neg hxy, List.filter_cons, List.filter_cons, ih hys]
      by_cases hx : p x <;> by_cases hy : p y <;> simp [hx, hy, insertBy, hxy]

theorem filter_sortBy {le : α → α → Bool}
    (total : ∀ a b, le a b = true ∨ le b a = true)
    (trans : ∀ a b c, le a b = true → le b c = true → le a c = true) (p : α → Bool)
    (xs : List α) : (sortBy le xs).filter p = sortBy le (xs.filter p) := by
  induction xs with
  | nil => rfl
  | cons x xs ih =>
    rw [sortBy, filter_insertBy trans p x (pairwise_sortBy total trans xs), ih, List.filter_cons]
    split <;> rfl

/-! ## Maxima -/

theorem foldl_max_le {α : Type} {f : α → Nat} {xs : List α} {m k : Nat} :
    xs.foldl (fun n x => max n (f x)) m ≤ k ↔ m ≤ k ∧ ∀ x ∈ xs, f x ≤ k := by
  induction xs generalizing m with
  | nil => simp
  | cons x xs ih =>
    rw [List.foldl_cons, ih]
    simp only [List.mem_cons, forall_eq_or_imp, Nat.max_le, and_assoc]

end Tenure
