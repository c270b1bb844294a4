import Tenure.Proofs.Filing
import Tenure.Proofs.Order

/-!
# Rewriting a history

A history may be stored again: the events that lost their effect are left out, and the others are
numbered anew in timeline order. This is what a repair does with the events that it keeps.

**Theorem (`rewriting_is_invisible`).** The rewritten history has the same effective events and the
same transitions as the one it replaces, and it goes on to have them whatever is recorded later.

Two orders meet here. Which event takes the effect of another away is decided by the order of
recording, and that order is given up. It survives where it matters:

* among the events that are kept none takes anything away. Rewriting puts a later date behind an
  earlier one, so the only pairs to look at lie at one instant, and those keep their order;
* an event recorded later comes behind all others before the rewriting and after it, so it meets
  the same victims. Those that lost their effect already are left out by the one and lost to the
  other.
-/

namespace Tenure

/-! ## New numbers -/

/-- The events in the order given, under other orderings. -/
def renumber (es : List Event) (orderings : List Nat) : List Event :=
  List.zipWith (fun e n => { e with ordering := n }) es orderings

/-- The ordering that an identifier has in a rewritten history; `n` if it is none of its own. -/
def orderingIn (rewritten : List Event) (i : EventId) (n : Nat) : Nat :=
  ((rewritten.find? (·.id == i)).map (·.ordering)).getD n

/-- The event as it reads after the rewriting. -/
def Event.under (rewritten : List Event) (e : Event) : Event :=
  { e with ordering := orderingIn rewritten e.id e.ordering }

/-- The transition as it reads after the rewriting. -/
def Transition.under (rewritten : List Event) (t : Transition) : Transition :=
  { t with ordering := orderingIn rewritten t.event t.ordering }

section Under

variable (r : List Event) (e : Event)

@[simp] theorem Event.under_id : (e.under r).id = e.id := rfl
@[simp] theorem Event.under_effective : (e.under r).effective = e.effective := rfl
@[simp] theorem Event.under_payload : (e.under r).payload = e.payload := rfl
@[simp] theorem Event.under_type : (e.under r).type = e.type := rfl

end Under

variable {es r ns : List Event} {orderings : List Nat} {e c : Event}

theorem orderingIn_of_mem (hids : (r.map (·.id)).Nodup) (he : e ∈ r) (n : Nat) :
    orderingIn r e.id n = e.ordering := by
  rw [orderingIn, find?_of_nodup hids he]
  rfl

theorem Event.under_of_not_mem (h : e.id ∉ r.map (·.id)) : e.under r = e := by
  have hnone : r.find? (·.id == e.id) = none := by
    refine List.find?_eq_none.2 fun f hf hid => h ?_
    exact List.mem_map.2 ⟨f, hf, by simpa using hid⟩
  rw [under, orderingIn, hnone]
  rfl

theorem map_id_renumber (hlength : orderings.length = es.length) :
    (renumber es orderings).map (·.id) = es.map (·.id) := by
  refine List.ext_getElem (by simp [renumber, hlength]) fun i hi hi' => ?_
  simp [renumber]

/-- A renumbered list holds the events as they read after the rewriting. -/
theorem renumber_eq_map (hids : (es.map (·.id)).Nodup) (hlength : orderings.length = es.length) :
    renumber es orderings = es.map (·.under (renumber es orderings)) := by
  have hids' : ((renumber es orderings).map (·.id)).Nodup := by rwa [map_id_renumber hlength]
  refine List.ext_getElem (by simp [renumber, hlength]) fun i hi hi' => ?_
  have hes : i < es.length := by simpa using hi'
  have hords : i < orderings.length := hlength ▸ hes
  have hget : (renumber es orderings)[i] = { es[i] with ordering := orderings[i] } := by
    simp [renumber]
  have hread := orderingIn_of_mem hids' (List.getElem_mem hi) es[i].ordering
  rw [hget] at hread
  rw [hget, List.getElem_map, Event.under, hread]

theorem pairwise_renumber (hlength : orderings.length = es.length)
    (hrise : orderings.Pairwise (· < ·)) :
    (renumber es orderings).Pairwise (fun a b => a.ordering < b.ordering) := by
  have hmap : (renumber es orderings).map (·.ordering) = orderings := by
    refine List.ext_getElem (by simp [renumber, hlength]) fun i hi hi' => ?_
    simp [renumber]
  rw [← hmap] at hrise
  exact List.pairwise_map.1 hrise

/-! ## Transitions read the same -/

theorem transitionsFrom_under (cursor : Cursor) (r es : List Event) :
    transitionsFrom cursor (es.map (·.under r)) =
      (transitionsFrom cursor es).map (·.under r) := by
  induction es generalizing cursor with
  | nil => rfl
  | cons e es ih =>
    have hstep : cursor.transition? (e.under r) = (cursor.transition? e).map (·.under r) := by
      unfold Cursor.transition?
      rw [Event.under_payload]
      cases cursor.destination? e.payload with
      | none => rfl
      | some d => rfl
    rw [List.map_cons, transitionsFrom, transitionsFrom, hstep]
    cases cursor.transition? e with
    | none => exact ih cursor
    | some t =>
      have hadvance : cursor.advance (t.under r) = cursor.advance t := rfl
      simp only [Option.map_some, List.map_cons, hadvance, ih]

/-! ## Nothing is lost among the rewritten events -/

/-- Renumbered in the order in which they stand, events stand in it as before. -/
theorem before_under (h : es.Pairwise Event.Before)
    (hrise : es.Pairwise (fun a b => (a.under r).ordering < (b.under r).ordering))
    (he : e ∈ es) (hc : c ∈ es) (hec : e.Before c) :
    (e.under r).ordering < (c.under r).ordering :=
  rel_of_pairwise h hrise (fun _ _ => Event.Before.asymm) he hc hec

/-- A settled history stays settled when it is renumbered in its order. -/
theorem Settled.under (h : Settled es)
    (hrise : es.Pairwise (fun a b => (a.under r).ordering < (b.under r).ordering)) :
    Settled (es.map (·.under r)) where
  inOrder := List.pairwise_map.2
    (h.inOrder.imp₂ (fun _ _ hab hlt => .of_date_le hab.date_le hlt) hrise)
  nothingLost := by
    intro e' he' c' hc' hlost
    obtain ⟨e, he, rfl⟩ := List.mem_map.1 he'
    obtain ⟨c, hc, rfl⟩ := List.mem_map.1 hc'
    obtain ⟨hlt, hkind⟩ := Event.isSupersededBy_iff.1 hlost
    -- The later one of the two by its new number lies behind the other.
    have hec : e.Before c := rel_of_pairwise hrise h.inOrder (fun _ _ => Nat.lt_asymm) he hc hlt
    rcases hkind with ⟨-, -, hdate⟩ | ⟨hcancel, huncancel, hdate⟩
    · exact absurd hec.date_le (Int.not_le.2 hdate)
    · have hsame : e.effective = c.effective :=
        Instant.ext (Int.le_antisymm hec.date_le hdate)
      exact h.nothingLost e he c hc (Event.isSupersededBy_iff.2
        ⟨hec.ordering_ne hsame, .inr ⟨hcancel, huncancel, hdate⟩⟩)

/-! ## Later events meet the same victims -/

/-- A history `es` with the settled one `v` of its effective events, which is rewritten to `r`, and
the events `ns` that are recorded behind both. -/
structure Rewritten (es r ns : List Event) : Prop where
  ids : ((es ++ ns).map (·.id)).Nodup
  orderings : es.Pairwise (fun a b => a.ordering ≠ b.ordering)
  eq_map : r = (effectiveEvents es).map (·.under r)
  rises : (effectiveEvents es).Pairwise
    (fun a b => (a.under r).ordering < (b.under r).ordering)
  later : ∀ e ∈ es, ∀ n ∈ ns, e.ordering < n.ordering
  laterThanRewritten : ∀ e ∈ r, ∀ n ∈ ns, e.ordering < n.ordering
  apart : ns.Pairwise (fun a b => a.ordering ≠ b.ordering)

namespace Rewritten

variable (h : Rewritten es r ns)

include h

theorem settled : Settled r := by
  rw [h.eq_map]
  exact (Settled.ofEffective h.orderings).under h.rises

theorem under_mem (he : e ∈ effectiveEvents es) : e.under r ∈ r := by
  have hmem := List.mem_map_of_mem (f := (·.under r)) he
  rwa [← h.eq_map] at hmem

theorem exists_of_mem (he : e ∈ r) : ∃ f ∈ effectiveEvents es, e = f.under r := by
  rw [h.eq_map] at he
  obtain ⟨f, hf, rfl⟩ := List.mem_map.1 he
  exact ⟨f, hf, rfl⟩

theorem ids_front : (es.map (·.id)).Nodup :=
  h.ids.sublist ((List.sublist_append_left es ns).map _)

theorem map_id : r.map (·.id) = (effectiveEvents es).map (·.id) := by
  conv_lhs => rw [h.eq_map]
  rw [List.map_map]
  rfl

theorem under_of_new (he : e ∈ ns) : e.under r = e := by
  refine Event.under_of_not_mem fun hid => ?_
  rw [h.map_id] at hid
  obtain ⟨f, hf, hfe⟩ := List.mem_map.1 hid
  have hdisjoint := (List.nodup_append.1 (List.map_append ▸ h.ids)).2.2
  exact hdisjoint _ (List.mem_map_of_mem (mem_effectiveEvents.1 hf).1) _
    (List.mem_map_of_mem he) hfe

theorem ids_rewritten : ((r ++ ns).map (·.id)).Nodup := by
  rw [List.map_append, h.map_id, ← List.map_append]
  obtain ⟨fs, hsub, hperm⟩ := effectiveEvents_perm_sublist es
  exact (((hperm.append_right ns).map _).nodup_iff).2 (h.ids.sublist ((hsub.append_right ns).map _))

/-- A new event takes the effect of a rewritten event away if it did so before. -/
theorem isSupersededBy_new (he : e ∈ effectiveEvents es) (hc : c ∈ ns) :
    (e.under r).isSupersededBy c = true ↔ e.isSupersededBy c = true := by
  have hlt := h.later e (mem_effectiveEvents.1 he).1 c hc
  have hlt' := h.laterThanRewritten _ (h.under_mem he) c hc
  rw [Event.isSupersededBy_iff, Event.isSupersededBy_iff]
  simp only [hlt, hlt', Event.under_type, Event.under_effective]

/-- What keeps its effect among all events keeps it in the rewritten history. -/
theorem mem_rewritten (he : e ∈ effectiveEvents (es ++ ns)) :
    e.under r ∈ effectiveEvents (r ++ ns) := by
  obtain ⟨he, hkeeps⟩ := (mem_effectiveEvents_iff h.ids).1 he
  rw [mem_effectiveEvents_iff h.ids_rewritten]
  rcases List.mem_append.1 he with he | he
  · have hold : e ∈ effectiveEvents es := (mem_effectiveEvents_iff h.ids_front).2
      ⟨he, fun c hc => hkeeps c (List.mem_append_left _ hc)⟩
    refine ⟨List.mem_append_left _ (h.under_mem hold), fun c hc hlost => ?_⟩
    rcases List.mem_append.1 hc with hc | hc
    · exact h.settled.nothingLost _ (h.under_mem hold) c hc hlost
    · exact hkeeps c (List.mem_append_right _ hc) ((h.isSupersededBy_new hold hc).1 hlost)
  · rw [h.under_of_new he]
    refine ⟨List.mem_append_right _ he, fun c hc hlost => ?_⟩
    rcases List.mem_append.1 hc with hc | hc
    · have := h.laterThanRewritten c hc e he
      have := (Event.isSupersededBy_iff.1 hlost).1
      omega
    · exact hkeeps c (List.mem_append_right _ hc) hlost

theorem exists_of_mem_rewritten (he : e ∈ effectiveEvents (r ++ ns)) :
    ∃ f ∈ effectiveEvents (es ++ ns), e = f.under r := by
  obtain ⟨he, hkeeps⟩ := (mem_effectiveEvents_iff h.ids_rewritten).1 he
  rcases List.mem_append.1 he with he | he
  · obtain ⟨f, hf, rfl⟩ := h.exists_of_mem he
    refine ⟨f, (mem_effectiveEvents_iff h.ids).2
      ⟨List.mem_append_left _ (mem_effectiveEvents.1 hf).1, fun c hc hlost => ?_⟩, rfl⟩
    rcases List.mem_append.1 hc with hc | hc
    · exact not_isSupersededBy hf hc hlost
    · exact hkeeps c (List.mem_append_right _ hc) ((h.isSupersededBy_new hf hc).2 hlost)
  · refine ⟨e, (mem_effectiveEvents_iff h.ids).2
      ⟨List.mem_append_right _ he, fun c hc hlost => ?_⟩, (h.under_of_new he).symm⟩
    rcases List.mem_append.1 hc with hc | hc
    · have := h.later c hc e he
      have := (Event.isSupersededBy_iff.1 hlost).1
      omega
    · exact hkeeps c (List.mem_append_right _ hc) hlost

theorem inOrder : ((effectiveEvents (es ++ ns)).map (·.under r)).Pairwise Event.Before := by
  have hne : (es ++ ns).Pairwise (fun a b => a.ordering ≠ b.ordering) :=
    List.pairwise_append.2 ⟨h.orderings, h.apart, fun a ha b hb => Nat.ne_of_lt (h.later a ha b hb)⟩
  have hsettled : Settled (effectiveEvents (es ++ ns)) := .ofEffective hne
  refine List.pairwise_map.2 (hsettled.inOrder.imp_of_mem fun {a b} ha hb hab => ?_)
  have hold {x : Event} (hx : x ∈ effectiveEvents (es ++ ns)) (hfront : x ∈ es) :
      x ∈ effectiveEvents es := (mem_effectiveEvents_iff h.ids_front).2
    ⟨hfront, fun c hc => not_isSupersededBy hx (List.mem_append_left _ hc)⟩
  rcases List.mem_append.1 (mem_effectiveEvents.1 ha).1 with ha' | ha' <;>
    rcases List.mem_append.1 (mem_effectiveEvents.1 hb).1 with hb' | hb'
  · have hlt := before_under (Settled.ofEffective h.orderings).inOrder h.rises (hold ha ha')
      (hold hb hb') hab
    rcases hab with hdate | ⟨hdate, -⟩
    · exact .inl hdate
    · exact .inr ⟨hdate, hlt⟩
  · have hlt := h.laterThanRewritten _ (h.under_mem (hold ha ha')) b hb'
    rw [h.under_of_new hb']
    rcases hab with hdate | ⟨hdate, -⟩
    · exact .inl hdate
    · exact .inr ⟨hdate, hlt⟩
  · -- A new event stands in front of an old one by its date alone.
    rcases hab with hdate | ⟨-, hlt⟩
    · exact .inl hdate
    · exact absurd (h.later b hb' a ha') (Nat.lt_asymm hlt)
  · rwa [h.under_of_new ha', h.under_of_new hb']

theorem effectiveEvents_eq :
    effectiveEvents (r ++ ns) = (effectiveEvents (es ++ ns)).map (·.under r) := by
  have hne : (r ++ ns).Pairwise (fun a b => a.ordering ≠ b.ordering) := by
    refine List.pairwise_append.2 ⟨?_, h.apart, fun a ha b hb =>
      Nat.ne_of_lt (h.laterThanRewritten a ha b hb)⟩
    rw [h.eq_map]
    exact List.pairwise_map.2 (h.rises.imp Nat.ne_of_lt)
  refine eq_of_perm_of_before ?_ (Settled.ofEffective hne).inOrder h.inOrder
  refine (List.perm_ext_iff_of_nodup ?_ ?_).2 fun e => ?_
  · exact (nodup_ids_effectiveEvents h.ids_rewritten).of_map _
  · refine List.Nodup.of_map (·.id) ?_
    rw [List.map_map]
    exact nodup_ids_effectiveEvents h.ids
  · constructor
    · intro he
      obtain ⟨f, hf, rfl⟩ := h.exists_of_mem_rewritten he
      exact List.mem_map_of_mem hf
    · intro he
      obtain ⟨f, hf, rfl⟩ := List.mem_map.1 he
      exact h.mem_rewritten hf

theorem transitions_eq :
    transitions (r ++ ns) = (transitions (es ++ ns)).map (·.under r) := by
  rw [transitions, h.effectiveEvents_eq, transitionsFrom_under, transitions]

end Rewritten

/-- Effective events that are renumbered are a rewriting, whatever is recorded behind them. -/
theorem rewritten_renumber (hords : (es.map (·.ordering)).Nodup)
    (hlength : orderings.length = (effectiveEvents es).length)
    (hrise : orderings.Pairwise (· < ·)) (hids : ((es ++ ns).map (·.id)).Nodup)
    (hapart : (ns.map (·.ordering)).Nodup)
    (hlater : ∀ e ∈ es ++ renumber (effectiveEvents es) orderings, ∀ n ∈ ns,
      e.ordering < n.ordering) :
    Rewritten es (renumber (effectiveEvents es) orderings) ns := by
  have hfront : (es.map (·.id)).Nodup := hids.sublist ((List.sublist_append_left es ns).map _)
  have hmap := renumber_eq_map (nodup_ids_effectiveEvents hfront) hlength
  refine ⟨hids, List.pairwise_map.1 hords, hmap, ?_,
    fun e he n hn => hlater e (List.mem_append_left _ he) n hn,
    fun e he n hn => hlater e (List.mem_append_right _ he) n hn, List.pairwise_map.1 hapart⟩
  have hpair := pairwise_renumber hlength hrise
  rw [hmap, List.pairwise_map] at hpair
  exact hpair

/-- **Rewriting is invisible.** The effective events of a history, under any orderings that rise,
are effective as they stand and make the same transitions. With any events recorded behind both
histories, the effective events and transitions of the one are those of the other, the orderings of
the rewritten events apart. -/
theorem rewriting_is_invisible (hids : (es.map (·.id)).Nodup) (hords : (es.map (·.ordering)).Nodup)
    (hlength : orderings.length = (effectiveEvents es).length)
    (hrise : orderings.Pairwise (· < ·)) (hr : r = renumber (effectiveEvents es) orderings) :
    effectiveEvents r = r ∧ transitions r = (transitions es).map (·.under r) ∧
      ∀ ns : List Event, ((es ++ ns).map (·.id)).Nodup → (ns.map (·.ordering)).Nodup →
        (∀ e ∈ es ++ r, ∀ n ∈ ns, e.ordering < n.ordering) →
        effectiveEvents (r ++ ns) = (effectiveEvents (es ++ ns)).map (·.under r) ∧
          transitions (r ++ ns) = (transitions (es ++ ns)).map (·.under r) := by
  subst hr
  have halone : Rewritten es (renumber (effectiveEvents es) orderings) [] :=
    rewritten_renumber hords hlength hrise (by simpa using hids) .nil (by simp)
  refine ⟨halone.settled.effectiveEvents_eq, ?_, fun ns hids' hapart hlater => ?_⟩
  · simpa using halone.transitions_eq
  · have h := rewritten_renumber hords hlength hrise hids' hapart hlater
    exact ⟨h.effectiveEvents_eq, h.transitions_eq⟩

namespace Sample

/-- An event of the sample subscription, number `n` in the order of recording. -/
def event (n date : Nat) (payload : Payload) : Event :=
  { Stamp.event ⟨day 0, day 0, "operator"⟩ ⟨n⟩ ⟨⟨1⟩, day date, payload⟩ with ordering := n }

/-- A subscription that was cancelled for day 20 and, while that stood, moved to another plan on
day 15. The cancellation was taken back as of its own date, and made again. -/
def history : List Event :=
  [event 1 0 (.create ⟨"pistol-monthly", "trial", "DEFAULT"⟩), event 2 30 (.phase "evergreen"),
    event 3 20 .cancel, event 4 20 .uncancel,
    event 5 15 (.change ⟨"shotgun-monthly", "evergreen", "DEFAULT"⟩), event 6 20 .cancel]

end Sample

/-- The phase and the first cancellation are lost. Four events are stored again, and the
cancellation among them can be taken back as before. -/
theorem rewriting_is_invisible_sample :
    effectiveEvents (renumber (effectiveEvents Sample.history) [11, 12, 13, 14] ++
        [Sample.event 21 16 .uncancel]) =
      [Sample.event 1 0 (.create ⟨"pistol-monthly", "trial", "DEFAULT"⟩),
        Sample.event 5 15 (.change ⟨"shotgun-monthly", "evergreen", "DEFAULT"⟩),
        Sample.event 21 16 .uncancel, Sample.event 4 20 .uncancel].map
          (·.under (renumber (effectiveEvents Sample.history) [11, 12, 13, 14])) := by
  have h := rewriting_is_invisible (by decide) (by decide) (by decide) (by decide)
    (Eq.refl (renumber (effectiveEvents Sample.history) [11, 12, 13, 14]))
  rw [(h.2.2 [Sample.event 21 16 .uncancel] (by decide) (by decide) (by decide)).1]
  decide

end Tenure
