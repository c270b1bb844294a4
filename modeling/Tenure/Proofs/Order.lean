import Mathlib.Data.List.Nodup
import Tenure.Store

/-!
# Timeline order

Two comparisons put events in order: by date and ordering, and with the identifier behind them.
Where no two events share an ordering both say the same, `Event.Before`, and a list that is in
that order already is left as it is by either.

A list is *calm* if it is in order and none of its events takes the effect of another away, and
*settled* if besides no two of its events tie. The effective events of any list are calm, and a calm
list is its own list of effective events (`Calm.effectiveEvents_eq`), so the state of a subscription
can be read straight off it.
-/

namespace Tenure

/-! ## Maxima -/

theorem maxOrdering_le {es : List Event} {k : Nat} :
    maxOrdering es ≤ k ↔ ∀ e ∈ es, e.ordering ≤ k := by
  simp [maxOrdering, foldl_max_le]

theorem ordering_le_maxOrdering {es : List Event} {e : Event} (h : e ∈ es) :
    e.ordering ≤ maxOrdering es :=
  maxOrdering_le.1 (Nat.le_refl _) e h

/-! ## The order of events -/

/-- Of two entries the one that comes first by one order of the list stands in front by any
other. -/
theorem rel_of_pairwise {α : Type} {R S : α → α → Prop} {xs : List α} (hR : xs.Pairwise R)
    (hS : xs.Pairwise S) (hasymm : ∀ a b, R a b → ¬ R b a) {a b : α} (ha : a ∈ xs) (hb : b ∈ xs)
    (hab : R a b) : S a b := by
  obtain ⟨i, hi, rfl⟩ := List.getElem_of_mem ha
  obtain ⟨j, hj, rfl⟩ := List.getElem_of_mem hb
  rcases Nat.lt_trichotomy i j with hij | rfl | hij
  · exact List.pairwise_iff_getElem.1 hS i j hi hj hij
  · exact (hasymm _ _ hab hab).elim
  · exact (hasymm _ _ hab (List.pairwise_iff_getElem.1 hR j i hj hi hij)).elim

theorem le_getLast? {α : Type} {f : α → Instant} {xs : List α}
    (h : xs.Pairwise (fun a b => f a ≤ f b)) {last : α} (hlast : xs.getLast? = some last) :
    ∀ x ∈ xs, f x ≤ f last := by
  obtain ⟨front, rfl⟩ := List.getLast?_eq_some_iff.1 hlast
  intro x hx
  rcases List.mem_append.1 hx with hx | hx
  · exact (List.pairwise_append.1 h).2.2 x hx last (by simp)
  · rw [List.mem_singleton.1 hx]
    exact Int.le_refl _

/-- The event stands earlier on a timeline: by date, and by ordering at one date. -/
def Event.Before (a b : Event) : Prop :=
  a.effective < b.effective ∨ (a.effective = b.effective ∧ a.ordering < b.ordering)

namespace Event.Before

variable {a b c : Event}

theorem le (h : a.Before b) : Event.le a b = true := by
  simp only [Event.le, Bool.or_eq_true, Bool.and_eq_true, decide_eq_true_eq, beq_iff_eq]
  rcases h with h | ⟨h, h'⟩
  · exact .inl h
  · exact .inr ⟨h, .inl h'⟩

theorem eventLe (h : a.Before b) : Store.eventLe a b = true := by
  simp only [Store.eventLe, Bool.or_eq_true, Bool.and_eq_true, decide_eq_true_eq, beq_iff_eq]
  rcases h with h | ⟨h, h'⟩
  · exact .inl h
  · exact .inr ⟨h, Nat.le_of_lt h'⟩

/-- What is recorded later and lies no earlier stands behind. -/
theorem of_date_le (hdate : a.effective ≤ b.effective) (hlt : a.ordering < b.ordering) :
    a.Before b := by
  simp only [Event.Before, Instant.lt_def, Instant.le_def, Instant.ext_iff] at hdate ⊢
  omega

theorem date_le (h : a.Before b) : a.effective ≤ b.effective := by
  rcases h with h | ⟨h, -⟩
  · exact Int.le_of_lt h
  · exact h ▸ Int.le_refl _

theorem ordering_ne (h : a.Before b) (h' : a.effective = b.effective) :
    a.ordering < b.ordering := by
  rcases h with h | ⟨-, h⟩
  · rw [h', Instant.lt_def] at h
    omega
  · exact h

theorem asymm (h : a.Before b) (h' : b.Before a) : False := by
  simp only [Event.Before, Instant.lt_def, Instant.ext_iff] at h h'
  omega

end Event.Before

/-- Events of different orderings are one before the other as they compare. -/
theorem Event.before_of_le {a b : Event} (h : Event.le a b = true) (hne : a.ordering ≠ b.ordering) :
    a.Before b := by
  simp only [Event.le, Bool.or_eq_true, Bool.and_eq_true, decide_eq_true_eq, beq_iff_eq] at h
  rcases h with h | ⟨h, h' | ⟨h', -⟩⟩
  · exact .inl h
  · exact .inr ⟨h, h'⟩
  · exact absurd h' hne

theorem Event.id_eq_of_le {a b : Event} (hab : Event.le a b = true) (hba : Event.le b a = true) :
    a.id = b.id := by
  have hnumber : a.id.number = b.id.number := by
    simp only [Event.le, Bool.or_eq_true, Bool.and_eq_true, decide_eq_true_eq, beq_iff_eq,
      Instant.lt_def, Instant.ext_iff] at hab hba
    omega
  exact congrArg EventId.mk hnumber

theorem pairwise_before_sortBy {es : List Event}
    (h : es.Pairwise (fun a b => a.ordering ≠ b.ordering)) :
    (sortBy Event.le es).Pairwise Event.Before := by
  have hne : (sortBy Event.le es).Pairwise (fun a b => a.ordering ≠ b.ordering) :=
    h.perm (sortBy_perm _ es).symm fun h => h.symm
  exact (pairwise_sortBy Event.le_total Event.le_trans es).imp₂
    (fun _ _ hle hne => Event.before_of_le hle hne) hne

theorem sortBy_eventLe_of_before {es : List Event} (h : es.Pairwise Event.Before) :
    sortBy Store.eventLe es = es :=
  sortBy_of_pairwise (h.imp Event.Before.eventLe)

theorem eq_of_perm_of_before {es fs : List Event} (h : es.Perm fs)
    (hes : es.Pairwise Event.Before) (hfs : fs.Pairwise Event.Before) : es = fs :=
  h.eq_of_pairwise (fun _ _ _ _ hab hba => (hab.asymm hba).elim) hes hfs

theorem eq_of_mem_of_before {es fs : List Event} (h : ∀ e, e ∈ es ↔ e ∈ fs)
    (hes : es.Pairwise Event.Before) (hfs : fs.Pairwise Event.Before) : es = fs := by
  have hnodup {gs : List Event} (hgs : gs.Pairwise Event.Before) : gs.Nodup :=
    hgs.imp fun {a b} hab (hsame : a = b) => hab.asymm (hsame ▸ hab)
  exact eq_of_perm_of_before ((List.perm_ext_iff_of_nodup (hnodup hes) (hnodup hfs)).2 h) hes hfs

/-! ## Effective events -/

theorem Event.isSupersededBy_iff {e c : Event} :
    e.isSupersededBy c = true ↔ e.ordering < c.ordering ∧
      ((e.type = .phase ∨ e.type = .change) ∧ c.type = .change ∧ c.effective < e.effective ∨
        e.type = .cancel ∧ c.type = .uncancel ∧ c.effective ≤ e.effective) := by
  unfold Event.isSupersededBy
  cases he : e.type <;> simp [and_assoc, and_left_comm]

theorem mem_effectiveEvents {es : List Event} {e : Event} :
    e ∈ effectiveEvents es ↔ e ∈ es ∧ e.id ∉ superseded es := by
  simp [effectiveEvents]

theorem effectiveEvents_perm_sublist (es : List Event) :
    ∃ fs : List Event, fs.Sublist es ∧ (effectiveEvents es).Perm fs :=
  ⟨_, List.filter_sublist, sortBy_perm _ _⟩

theorem nodup_ids_effectiveEvents {es : List Event} (h : (es.map (·.id)).Nodup) :
    ((effectiveEvents es).map (·.id)).Nodup := by
  obtain ⟨fs, hsub, hperm⟩ := effectiveEvents_perm_sublist es
  exact (hperm.map _).nodup_iff.2 (h.sublist (hsub.map _))

theorem mem_superseded {es : List Event} {i : EventId} :
    i ∈ superseded es ↔ ∃ e ∈ es, (∃ c ∈ es, e.isSupersededBy c = true) ∧ e.id = i := by
  simp [superseded, and_assoc]

theorem not_isSupersededBy {es : List Event} {e c : Event} (he : e ∈ effectiveEvents es)
    (hc : c ∈ es) : ¬ e.isSupersededBy c = true := fun h =>
  (mem_effectiveEvents.1 he).2 <|
    mem_superseded.2 ⟨e, (mem_effectiveEvents.1 he).1, ⟨c, hc, h⟩, rfl⟩

/-- Events of distinct identifiers keep their effect unless another takes it away. -/
theorem mem_effectiveEvents_iff {es : List Event} {e : Event} (hids : (es.map (·.id)).Nodup) :
    e ∈ effectiveEvents es ↔ e ∈ es ∧ ∀ c ∈ es, ¬ e.isSupersededBy c = true := by
  constructor
  · intro he
    exact ⟨(mem_effectiveEvents.1 he).1, fun c hc => not_isSupersededBy he hc⟩
  · rintro ⟨he, hkeeps⟩
    refine mem_effectiveEvents.2 ⟨he, fun hlost => ?_⟩
    obtain ⟨f, hf, ⟨c, hc, hfc⟩, hid⟩ := mem_superseded.1 hlost
    obtain rfl := List.inj_on_of_nodup_map hids hf he hid
    exact hkeeps c hc hfc

/-- The order in which events are listed does not matter to their effect. -/
theorem effectiveEvents_perm {es fs : List Event} (h : es.Perm fs)
    (hne : es.Pairwise (fun a b => a.ordering ≠ b.ordering)) :
    effectiveEvents es = effectiveEvents fs := by
  have hlost : ∀ i, (superseded es).contains i = (superseded fs).contains i := by
    intro i
    rw [Bool.eq_iff_iff]
    simp only [List.contains_iff_mem, mem_superseded, h.mem_iff]
  have hperm : (es.filter fun e => !(superseded es).contains e.id).Perm
      (fs.filter fun e => !(superseded fs).contains e.id) := by
    simp only [hlost]
    exact h.filter _
  have hne' : fs.Pairwise (fun a b => a.ordering ≠ b.ordering) := hne.perm h fun h => h.symm
  refine eq_of_perm_of_before ?_ (pairwise_before_sortBy (hne.sublist List.filter_sublist))
    (pairwise_before_sortBy (hne'.sublist List.filter_sublist))
  exact ((sortBy_perm _ _).trans hperm).trans (sortBy_perm _ _).symm

theorem effectiveEvents_congr {es fs : List Event} (hids : (es.map (·.id)).Nodup)
    (hids' : (fs.map (·.id)).Nodup) (h : ∀ e, e ∈ es ↔ e ∈ fs) :
    effectiveEvents es = effectiveEvents fs := by
  have hmem : ∀ e, e ∈ effectiveEvents es ↔ e ∈ effectiveEvents fs := fun e => by
    simp only [mem_effectiveEvents_iff hids, mem_effectiveEvents_iff hids', h]
  have hperm : (effectiveEvents es).Perm (effectiveEvents fs) :=
    (List.perm_ext_iff_of_nodup ((nodup_ids_effectiveEvents hids).of_map _)
      ((nodup_ids_effectiveEvents hids').of_map _)).2 hmem
  refine hperm.eq_of_pairwise (fun a b ha hb hab hba => ?_)
    (pairwise_sortBy Event.le_total Event.le_trans _)
    (pairwise_sortBy Event.le_total Event.le_trans _)
  exact List.inj_on_of_nodup_map (nodup_ids_effectiveEvents hids) ha ((hmem b).2 hb)
    (Event.id_eq_of_le hab hba)

/-- A start that no cancellation stands in front of, and that lies behind none, is before all. -/
theorem Event.before_of_ordered {es : List Event} {f e : Event}
    (h : es.Pairwise fun a b =>
      a.ordering < b.ordering ∧ (a.type = .cancel → b.type.startsSubscription = false))
    (hf : f ∈ es) (he : e ∈ es) (hstart : f.type.startsSubscription = true)
    (hcancel : e.type = .cancel) (hdate : f.effective ≤ e.effective) : f.Before e := by
  have hlt : f.ordering < e.ordering := by
    rcases Nat.lt_trichotomy f.ordering e.ordering with hlt | heq | hlt
    · exact hlt
    · have hsame : f = e := List.inj_on_of_nodup_map (f := (·.ordering))
        (List.pairwise_map.2 (h.imp fun h => Nat.ne_of_lt h.1)) hf he heq
      rw [hsame, hcancel] at hstart
      cases hstart
    · have hkind := rel_of_pairwise (h.imp And.left) (h.imp And.right)
        (fun _ _ => Nat.lt_asymm) he hf hlt hcancel
      rw [hstart] at hkind
      cases hkind
  exact .of_date_le hdate hlt

/-- In timeline order, which may be by identifier, with no event taking the effect of another
away. -/
structure Calm (es : List Event) : Prop where
  inOrder : es.Pairwise (fun a b => Event.le a b = true)
  nothingLost : ∀ e ∈ es, ∀ c ∈ es, ¬ e.isSupersededBy c = true

namespace Calm

variable {es fs : List Event}

theorem effectiveEvents_eq (h : Calm es) : effectiveEvents es = es := by
  have hlost : superseded es = [] := by
    simp only [superseded, List.map_eq_nil_iff, List.filter_eq_nil_iff, List.any_eq_true,
      not_exists, not_and]
    exact h.nothingLost
  rw [effectiveEvents, hlost, List.filter_eq_self.2 (by simp)]
  exact sortBy_of_pairwise h.inOrder

theorem ofEffective (es : List Event) : Calm (effectiveEvents es) where
  inOrder := pairwise_sortBy Event.le_total Event.le_trans _
  nothingLost := fun _ he _ hc => not_isSupersededBy he (mem_effectiveEvents.1 hc).1

theorem sublist (h : Calm es) (hsub : fs.Sublist es) : Calm fs where
  inOrder := h.inOrder.sublist hsub
  nothingLost := fun e he c hc => h.nothingLost e (hsub.subset he) c (hsub.subset hc)

/-- Events recorded behind all others in the order of their dates, with no uncancellation among
them, take nothing away and keep their effect. -/
theorem append (h : Calm es) (hdate : (es ++ fs).Pairwise (fun a b => a.effective ≤ b.effective))
    (hbehind : ∀ e ∈ es, ∀ f ∈ fs, e.ordering < f.ordering)
    (hrise : fs.Pairwise (fun a b => a.ordering < b.ordering))
    (htype : ∀ f ∈ fs, f.type ≠ .uncancel) : Calm (es ++ fs) := by
  obtain ⟨-, hfs, hacross⟩ := List.pairwise_append.1 hdate
  refine ⟨List.pairwise_append.2 ⟨h.inOrder, ?_, fun e he f hf => ?_⟩, fun e he c hc hlost => ?_⟩
  · exact hfs.imp₂ (fun _ _ hle hlt => (Event.Before.of_date_le hle hlt).le) hrise
  · exact (Event.Before.of_date_le (hacross e he f hf) (hbehind e he f hf)).le
  · obtain ⟨hlt, hkind⟩ := Event.isSupersededBy_iff.1 hlost
    rcases List.mem_append.1 hc with hc | hc
    · rcases List.mem_append.1 he with he | he
      · exact h.nothingLost e he c hc hlost
      · exact Nat.lt_asymm hlt (hbehind c hc e he)
    · -- The later event is a new one, so the other does not lie behind its date.
      have hle : e.effective ≤ c.effective := by
        rcases List.mem_append.1 he with he | he
        · exact hacross e he c hc
        · exact rel_of_pairwise hrise hfs (fun _ _ => Nat.lt_asymm) he hc hlt
      rcases hkind with ⟨-, -, hbefore⟩ | ⟨-, huncancel, -⟩
      · exact Int.not_lt.2 hle hbefore
      · exact htype c hc huncancel

end Calm

/-- In timeline order by date and ordering, with no event taking the effect of another away. -/
structure Settled (es : List Event) : Prop where
  inOrder : es.Pairwise Event.Before
  nothingLost : ∀ e ∈ es, ∀ c ∈ es, ¬ e.isSupersededBy c = true

namespace Settled

variable {es fs : List Event}

theorem calm (h : Settled es) : Calm es := ⟨h.inOrder.imp Event.Before.le, h.nothingLost⟩

theorem effectiveEvents_eq (h : Settled es) : effectiveEvents es = es := h.calm.effectiveEvents_eq

theorem ofEffective (h : es.Pairwise (fun a b => a.ordering ≠ b.ordering)) :
    Settled (effectiveEvents es) where
  inOrder := pairwise_before_sortBy (h.sublist List.filter_sublist)
  nothingLost := fun _ he _ hc => not_isSupersededBy he (mem_effectiveEvents.1 hc).1

theorem sublist (h : Settled es) (hsub : fs.Sublist es) : Settled fs where
  inOrder := h.inOrder.sublist hsub
  nothingLost := fun e he c hc => h.nothingLost e (hsub.subset he) c (hsub.subset hc)

/-- An event recorded behind all others, not before any of them and no uncancellation, takes
nothing away and keeps its effect. -/
theorem append_one (h : Settled es) {c : Event} (hordering : ∀ e ∈ es, e.ordering < c.ordering)
    (hdate : ∀ e ∈ es, e.effective ≤ c.effective) (htype : c.type ≠ .uncancel) :
    Settled (es ++ [c]) where
  inOrder := by
    refine List.pairwise_append.2 ⟨h.inOrder, List.pairwise_singleton _ _, fun e he c' hc' => ?_⟩
    rw [List.mem_singleton.1 hc']
    exact .of_date_le (hdate e he) (hordering e he)
  nothingLost := by
    have hdates : (es ++ [c]).Pairwise (fun a b => a.effective ≤ b.effective) := by
      refine List.pairwise_append.2 ⟨h.inOrder.imp Event.Before.date_le,
        List.pairwise_singleton _ _, fun e he c' hc' => ?_⟩
      rw [List.mem_singleton.1 hc']
      exact hdate e he
    refine (h.calm.append hdates (fun e he c' hc' => ?_) (List.pairwise_singleton _ _)
      (by simpa using htype)).nothingLost
    rw [List.mem_singleton.1 hc']
    exact hordering e he

end Settled

end Tenure
