import Tenure.Proofs.Phases
import Tenure.Proofs.Standing

/-!
# The course of a subscription

The course of a history is the position it leads to if nothing is made of its cancellations. It is
set by the moves alone, which are the starts, changes and phases. A cancellation or an
uncancellation recorded later leaves it as it is, and a change sets it anew.

A history *completes* if it is cancelled in the end or its course ends on a phase without successor.
A subscription that is not cancelled stands where its course ends, so one that completes is never
stranded.
-/

namespace Tenure

/-! ## Moves -/

/-- The position behind an event of a subscription that is never cancelled. -/
def Payload.lead (t : Option Target) : Payload → Option Target
  | .create t' | .reCreate t' | .transfer t' | .migrateEntitlement t' => some t'
  | .change t' => t.map fun _ => t'
  | .phase name => t.map fun t => { t with phase := name }
  | .migrateBilling _ | .cancel | .uncancel => t

/-- The position behind events with these payloads. -/
def leads (t : Option Target) (payloads : List Payload) : Option Target :=
  payloads.foldl (fun t payload => payload.lead t) t

/-- The event starts a subscription or moves it on. -/
def Event.isMove (e : Event) : Bool :=
  e.type.startsSubscription || e.type == .change || e.type == .phase

section Leads

variable {t : Option Target} {payload : Payload} {payloads : List Payload} {e : Event}
  {es : List Event}

theorem leads_cons (t : Option Target) (payload : Payload) (payloads : List Payload) :
    leads t (payload :: payloads) = leads (payload.lead t) payloads := rfl

theorem leads_append (t : Option Target) (payloads more : List Payload) :
    leads t (payloads ++ more) = leads (leads t payloads) more :=
  List.foldl_append

theorem lead_of_not_isMove (h : e.isMove = false) (t : Option Target) : e.payload.lead t = t := by
  unfold Event.isMove Event.type at h
  cases hp : e.payload <;> rw [hp] at h <;> first | rfl | cases h

theorem leads_filter_isMove (t : Option Target) (es : List Event) :
    leads t ((es.filter (·.isMove)).map (·.payload)) = leads t (es.map (·.payload)) := by
  induction es generalizing t with
  | nil => rfl
  | cons e es ih =>
    rw [List.map_cons, leads_cons]
    cases he : e.isMove with
    | true => rw [List.filter_cons_of_pos he, List.map_cons, leads_cons, ih]
    | false => rw [List.filter_cons_of_neg (by simp [he]), lead_of_not_isMove he, ih]

theorem lead_isSome (h : t.isSome = true) (payload : Payload) : (payload.lead t).isSome = true := by
  cases payload <;> simp [Payload.lead, h]

theorem leads_isSome (h : t.isSome = true) (payloads : List Payload) :
    (leads t payloads).isSome = true := by
  induction payloads generalizing t with
  | nil => exact h
  | cons payload payloads ih => exact ih (lead_isSome h payload)

theorem lead_of_starts (h : payload.type.startsSubscription = true) (t : Option Target) :
    (payload.lead t).isSome = true := by
  cases payload <;> first | rfl | cases h

theorem leads_of_starts (h : starts es ≠ []) (t : Option Target) :
    (leads t (es.map (·.payload))).isSome = true := by
  induction es generalizing t with
  | nil => exact (h rfl).elim
  | cons e es ih =>
    rw [List.map_cons, leads_cons]
    by_cases he : e.type.startsSubscription = true
    · exact leads_isSome (lead_of_starts he t) _
    · rw [starts_cons, if_neg he] at h
      exact ih h _

theorem filter_isMove_filter_cancel (es : List Event) :
    (es.filter (·.type != .cancel)).filter (·.isMove) = es.filter (·.isMove) := by
  rw [List.filter_filter]
  apply List.filter_congr
  intro e _
  cases htype : e.type <;> simp [Event.isMove, htype, EventType.startsSubscription]

theorem leads_of_not_starts (h : starts es = []) : leads none (es.map (·.payload)) = none := by
  induction es with
  | nil => rfl
  | cons e es ih =>
    rw [starts_cons, List.append_eq_nil_iff] at h
    have hlead : e.payload.lead none = none := by
      have hstart : e.type.startsSubscription = false := by simpa using h.1
      unfold Event.type at hstart
      cases hp : e.payload <;> rw [hp] at hstart <;> first | rfl | cases hstart
    rw [List.map_cons, leads_cons, hlead]
    exact ih h.2

theorem leads_phases (target : Target) (names : List String) :
    leads (some target) (names.map .phase) =
      some { target with phase := names.getLastD target.phase } := by
  induction names generalizing target with
  | nil => rfl
  | cons name names ih =>
    rw [List.getLastD_cons]
    exact ih _

end Leads

/-- The position that events lead to, if nothing is made of cancellations. -/
def course (es : List Event) : Option Target := leads none ((effectiveEvents es).map (·.payload))

theorem course_congr {es fs : List Event} (h : effectiveEvents es = effectiveEvents fs) :
    course es = course fs := by
  rw [course, course, h]

/-! ## The cursor keeps to the course -/

section Cursors

variable {c c' : Cursor} {e : Event} {es : List Event}

theorem after_of_not_live (h : c.cancelled = true) :
    c.after e = c ∨ e.type.startsSubscription = true := by
  unfold Cursor.after Cursor.transition? Event.type
  cases e.payload <;> simp [Cursor.destination?, Cursor.isLive, h, Payload.type,
    EventType.startsSubscription]

theorem after_of_starts (h : e.type.startsSubscription = true) (c : Cursor) (t : Option Target) :
    c.after e = ⟨e.payload.lead t, false⟩ := by
  unfold Event.type at h
  unfold Cursor.after Cursor.transition?
  cases hp : e.payload <;> rw [hp] at h <;> first | rfl | cases h

theorem after_of_active {t : Option Target} (hc : c.cancelled = false) (ht : c.target = t) :
    c.after e = if e.type = .cancel then ⟨t, t.isSome⟩ else ⟨e.payload.lead t, false⟩ := by
  obtain ⟨target, cancelled⟩ := c
  obtain rfl : cancelled = false := hc
  obtain rfl : target = t := ht
  unfold Cursor.after Cursor.transition? Event.type
  cases e.payload <;> cases target <;> rfl

/-- A cursor that is not cancelled stands where the events lead. -/
theorem target_through {t : Option Target} (h : c.cancelled = false → c.target = t)
    (hc : (c.through es).cancelled = false) :
    (c.through es).target = leads t (es.map (·.payload)) := by
  induction es generalizing c t with
  | nil => exact h hc
  | cons e es ih =>
    rw [List.map_cons, leads_cons]
    refine ih (fun hafter => ?_) hc
    by_cases hstart : e.type.startsSubscription = true
    · rw [after_of_starts hstart c t]
    · cases hcancelled : c.cancelled with
      | true =>
        rw [(after_of_not_live hcancelled).resolve_right hstart, hcancelled] at hafter
        cases hafter
      | false =>
        have htarget := h hcancelled
        have hstep := after_of_active (e := e) hcancelled htarget
        by_cases hcancel : e.type = .cancel
        · rw [if_pos hcancel] at hstep
          rw [hstep] at hafter ⊢
          have hmove : e.isMove = false := by
            simp [Event.isMove, hcancel, EventType.startsSubscription]
          rw [lead_of_not_isMove hmove]
        · rw [if_neg hcancel] at hstep
          rw [hstep]

theorem through_of_not_live (hc : c.cancelled = true) (h : starts es = []) : c.through es = c := by
  induction es with
  | nil => rfl
  | cons e es ih =>
    rw [starts_cons, List.append_eq_nil_iff] at h
    have hstart : ¬ e.type.startsSubscription = true := by simpa using h.1
    rw [Cursor.through_cons, (after_of_not_live hc).resolve_right hstart]
    exact ih h.2

theorem target_isSome_through (h : starts es ≠ []) :
    (Cursor.start.through es).target.isSome = true := by
  rw [(tells_through es).started, Ne,
    ← List.map_eq_nil_iff (f := fun era : Era => era.opening.effective), eras_opening,
    starts_transitionsFrom]
  exact h

theorem cancelled_through (hc : c.cancelled = false) (h : ∀ e ∈ es, e.type ≠ .cancel) :
    (c.through es).cancelled = false := by
  induction es generalizing c with
  | nil => exact hc
  | cons e es ih =>
    refine ih ?_ fun f hf => h f (by simp [hf])
    rw [after_of_active hc rfl, if_neg (h e (by simp))]

/-- With more cancellations a cursor is cancelled, or it is where it was. -/
theorem through_of_more_cancels {p : Event → Bool} (h : ∀ e ∈ es, p e = false → e.type = .cancel)
    (hc : c'.cancelled = true ∨ c' = c) :
    (c'.through es).cancelled = true ∨ c'.through es = c.through (es.filter p) := by
  induction es generalizing c c' with
  | nil => exact hc
  | cons e es ih =>
    have hrest : ∀ f ∈ es, p f = false → f.type = .cancel := fun f hf => h f (by simp [hf])
    cases he : p e with
    | true =>
      rw [List.filter_cons_of_pos he]
      refine ih hrest ?_
      rcases hc with hc | rfl
      · rcases after_of_not_live hc (e := e) with hsame | hstart
        · rw [hsame]
          exact .inl hc
        · exact .inr ((after_of_starts hstart c' none).trans (after_of_starts hstart c none).symm)
      · exact .inr rfl
    | false =>
      rw [List.filter_cons_of_neg (by simp [he])]
      refine ih hrest ?_
      have hcancel := h e (by simp) he
      cases hcancelled : c'.cancelled with
      | true =>
        have hstart : ¬ e.type.startsSubscription = true := by
          simp [hcancel, EventType.startsSubscription]
        rw [(after_of_not_live hcancelled).resolve_right hstart]
        exact .inl hcancelled
      | false =>
        obtain rfl : c' = c := hc.resolve_left (by simp [hcancelled])
        rw [after_of_active hcancelled rfl, if_pos hcancel]
        cases htarget : c'.target with
        | none =>
          right
          obtain ⟨target, cancelled⟩ := c'
          simp_all
        | some t => exact .inl rfl

end Cursors

/-! ## Longer histories -/

section Histories

variable {es fs : List Event} {n : Nat}

/-- Events that are picked with all that takes their effect away keep it as they did. -/
theorem effectiveEvents_filter {p : Event → Bool} (hids : (es.map (·.id)).Nodup)
    (hp : ∀ e ∈ es, ∀ c ∈ es, p e = true → e.isSupersededBy c = true → p c = true) :
    effectiveEvents (es.filter p) = (effectiveEvents es).filter p := by
  have hlost (e : Event) (he : e ∈ es) (hpe : p e = true) :
      (superseded (es.filter p)).contains e.id = (superseded es).contains e.id := by
    rw [Bool.eq_iff_iff, List.contains_iff_mem, List.contains_iff_mem, mem_superseded,
      mem_superseded]
    constructor
    · rintro ⟨f, hf, ⟨c, hc, hfc⟩, hid⟩
      exact ⟨f, (List.mem_filter.1 hf).1, ⟨c, (List.mem_filter.1 hc).1, hfc⟩, hid⟩
    · rintro ⟨f, hf, ⟨c, hc, hfc⟩, hid⟩
      obtain rfl := List.inj_on_of_nodup_map hids hf he hid
      exact ⟨f, List.mem_filter.2 ⟨hf, hpe⟩,
        ⟨c, List.mem_filter.2 ⟨hc, hp f hf c hc hpe hfc⟩, hfc⟩, rfl⟩
  rw [effectiveEvents, effectiveEvents, filter_sortBy Event.le_total Event.le_trans,
    List.filter_filter, List.filter_filter]
  congr 1
  apply List.filter_congr
  intro e he
  cases hpe : p e with
  | false => simp
  | true => rw [hlost e he hpe, Bool.and_comm]

/-- The moves that keep their effect are the effective ones among the moves. -/
theorem effectiveEvents_moves (hids : (es.map (·.id)).Nodup) :
    effectiveEvents (es.filter (·.isMove)) = (effectiveEvents es).filter (·.isMove) := by
  apply effectiveEvents_filter hids
  intro e _ c _ he hec
  obtain ⟨-, ⟨-, hc, -⟩ | ⟨hcancel, -⟩⟩ := Event.isSupersededBy_iff.1 hec
  · simp [Event.isMove, hc]
  · simp [Event.isMove, hcancel, EventType.startsSubscription] at he

/-- What is effective up to a date is settled by the events up to then. -/
theorem effectiveEvents_upTo (hids : (es.map (·.id)).Nodup) (t : Instant) :
    effectiveEvents (es.filter (·.effective ≤ t)) =
      (effectiveEvents es).filter (·.effective ≤ t) := by
  apply effectiveEvents_filter hids
  intro e _ c _ he hlost
  obtain ⟨-, ⟨-, -, hlt⟩ | ⟨-, -, hle⟩⟩ := Event.isSupersededBy_iff.1 hlost
  · exact decide_eq_true (Int.le_trans (Int.le_of_lt hlt) (of_decide_eq_true he))
  · exact decide_eq_true (Int.le_trans hle (of_decide_eq_true he))

theorem course_eq_moves (hids : (es.map (·.id)).Nodup) :
    course es = leads none ((effectiveEvents (es.filter (·.isMove))).map (·.payload)) := by
  rw [effectiveEvents_moves hids, leads_filter_isMove, course]

theorem course_append_of_not_moves (hids : ((es ++ fs).map (·.id)).Nodup)
    (hfs : ∀ f ∈ fs, f.isMove = false) : course (es ++ fs) = course es := by
  have hes : (es.map (·.id)).Nodup := hids.sublist ((List.sublist_append_left es fs).map _)
  have hnone : fs.filter (·.isMove) = [] :=
    List.filter_eq_nil_iff.2 fun f hf => by simp [hfs f hf]
  rw [course_eq_moves hids, course_eq_moves hes, List.filter_append, hnone, List.append_nil]

theorem course_of_settled (hids : (es.map (·.id)).Nodup) (h : Settled (es.filter (·.isMove))) :
    course es = leads none (es.map (·.payload)) := by
  rw [course_eq_moves hids, h.effectiveEvents_eq, leads_filter_isMove]

/-- Dates and orderings that rise together leave nothing to take away. -/
theorem Settled.of_ascending (hord : es.Pairwise (fun a b => a.ordering < b.ordering))
    (hdate : es.Pairwise (fun a b => a.effective ≤ b.effective))
    (htype : ∀ e ∈ es, e.type ≠ .uncancel) : Settled es where
  inOrder := hdate.imp₂ (fun _ _ => .of_date_le) hord
  nothingLost := by
    intro e he c hc hlost
    obtain ⟨hlt, ⟨-, -, hbefore⟩ | ⟨-, huncancel, -⟩⟩ := Event.isSupersededBy_iff.1 hlost
    · have hle := rel_of_pairwise hord hdate (fun _ _ => Nat.lt_asymm) he hc hlt
      exact absurd hle (Int.not_le.2 hbefore)
    · exact htype c hc huncancel

/-- A move other than a start loses its effect to a change recorded later for an earlier date. -/
theorem Event.isSupersededBy_of_move {e c : Event} (hmove : e.isMove = true)
    (hstart : e.type.startsSubscription = true → e.effective ≤ c.effective) (hc : c.type = .change)
    (hord : e.ordering < c.ordering) (hlt : c.effective < e.effective) :
    e.isSupersededBy c = true := by
  have hno : ¬ e.type.startsSubscription = true := fun h => absurd hlt (Int.not_lt.2 (hstart h))
  have hkind : e.type = .phase ∨ e.type = .change := by
    simpa [Event.isMove, hno, or_comm] using hmove
  exact Event.isSupersededBy_iff.2 ⟨hord, .inl ⟨hkind, hc, hlt⟩⟩

/-- The event is recorded with the first of `fs` or behind it. -/
def Event.isSince (fs : List Event) (e : Event) : Bool := fs.any (·.ordering ≤ e.ordering)

section Appended

variable (hord : (es ++ fs).Pairwise (fun a b => a.ordering < b.ordering))

include hord

theorem isSince_of_front {e : Event} (he : e ∈ es) : e.isSince fs = false := by
  apply List.any_eq_false.2
  intro f hf
  have := (List.pairwise_append.1 hord).2.2 e he f hf
  simp only [decide_eq_true_eq]
  omega

omit hord in
theorem isSince_of_mem {f : Event} (hf : f ∈ fs) : f.isSince fs = true :=
  List.any_eq_true.2 ⟨f, hf, by simp⟩

theorem filter_isSince_moves (hmoves : ∀ f ∈ fs, f.isMove = true) :
    ((es ++ fs).filter (·.isMove)).filter (·.isSince fs) = fs := by
  have hnone : es.filter (·.isSince fs) = [] :=
    List.filter_eq_nil_iff.2 fun e he => by simp [isSince_of_front hord he]
  rw [List.filter_comm, List.filter_append, hnone, List.nil_append,
    List.filter_eq_self.2 fun f hf => isSince_of_mem hf, List.filter_eq_self.2 hmoves]

/-- Settled moves that are recorded behind all others keep their effect. -/
theorem filter_isSince_effectiveEvents (hids : (((es ++ fs).filter (·.isMove)).map (·.id)).Nodup)
    (hfs : Settled fs) (hmoves : ∀ f ∈ fs, f.isMove = true) :
    (effectiveEvents ((es ++ fs).filter (·.isMove))).filter (·.isSince fs) = fs := by
  rw [← effectiveEvents_filter hids, filter_isSince_moves hord hmoves, hfs.effectiveEvents_eq]
  intro e _ c _ he hec
  obtain ⟨f, hf, hle⟩ := List.any_eq_true.1 he
  have hlt := (Event.isSupersededBy_iff.1 hec).1
  refine List.any_eq_true.2 ⟨f, hf, ?_⟩
  simp only [decide_eq_true_eq] at hle ⊢
  omega

/-- If they also lie behind the earlier ones that keep theirs, those come first. -/
theorem effectiveEvents_moves_append (hids : ((es ++ fs).map (·.id)).Nodup) (hfs : Settled fs)
    (hmoves : ∀ f ∈ fs, f.isMove = true)
    (hbefore : ∀ e ∈ es, e ∈ effectiveEvents (es ++ fs) → e.isMove = true → ∀ f ∈ fs, e.Before f) :
    effectiveEvents ((es ++ fs).filter (·.isMove)) =
      (effectiveEvents ((es ++ fs).filter (·.isMove))).filter (! ·.isSince fs) ++ fs := by
  have hsettled : Settled (effectiveEvents ((es ++ fs).filter (·.isMove))) :=
    .ofEffective ((hord.imp Nat.ne_of_lt).sublist List.filter_sublist)
  have hback := filter_isSince_effectiveEvents hord (hids.sublist (List.filter_sublist.map _)) hfs
    hmoves
  refine eq_of_perm_of_before ?_ hsettled.inOrder (List.pairwise_append.2
    ⟨hsettled.inOrder.sublist List.filter_sublist, hfs.inOrder, fun e he => ?_⟩)
  · have hperm := List.filter_append_perm (·.isSince fs)
      (effectiveEvents ((es ++ fs).filter (·.isMove)))
    rw [hback] at hperm
    exact hperm.symm.trans List.perm_append_comm
  · rw [effectiveEvents_moves hids, List.mem_filter, List.mem_filter] at he
    obtain ⟨⟨he, hmove⟩, hnot⟩ := he
    refine hbefore e ((List.mem_append.1 (mem_effectiveEvents.1 he).1).resolve_right fun hf => ?_)
      he hmove
    rw [isSince_of_mem hf] at hnot
    cases hnot

/-- Settled moves that are recorded behind all others and lie behind those that keep their effect
lead the course on from there. -/
theorem course_append_of_settled (hids : ((es ++ fs).map (·.id)).Nodup) (hfs : Settled fs)
    (hmoves : ∀ f ∈ fs, f.isMove = true)
    (hbefore : ∀ e ∈ es, e ∈ effectiveEvents (es ++ fs) → e.isMove = true → ∀ f ∈ fs, e.Before f) :
    ∃ t, (starts es ≠ [] → t.isSome = true) ∧
      course (es ++ fs) = leads t (fs.map (·.payload)) := by
  have hsplit := effectiveEvents_moves_append hord hids hfs hmoves hbefore
  generalize hfront : (effectiveEvents ((es ++ fs).filter (·.isMove))).filter (! ·.isSince fs) =
    front at hsplit
  refine ⟨leads none (front.map (·.payload)), fun hne => leads_of_starts (fun hnil => hne ?_) none,
    ?_⟩
  · refine starts_eq_nil.2 fun e he => Bool.eq_false_iff.2 ?_
    intro hstart
    have hmove : e ∈ (es ++ fs).filter (·.isMove) :=
      List.mem_filter.2 ⟨List.mem_append_left _ he, by simp [Event.isMove, hstart]⟩
    have hmem : e ∈ front := by
      rw [← hfront, List.mem_filter]
      exact ⟨mem_effectiveEvents_of_starts (hids.sublist (List.filter_sublist.map _)) hmove hstart,
        by simp [isSince_of_front hord he]⟩
    rw [starts_eq_nil.1 hnil e hmem] at hstart
    cases hstart
  · rw [course_eq_moves hids, hsplit, List.map_append, leads_append]

end Appended

/-- A change that is recorded behind all others and lies behind every start sets the course anew,
with the phases that it brings along. -/
theorem course_append_change {c : Event} {target : Target} {names : List String}
    (hids : ((es ++ c :: fs).map (·.id)).Nodup)
    (hord : (es ++ c :: fs).Pairwise (fun a b => a.ordering < b.ordering))
    (hdate : (c :: fs).Pairwise (fun a b => a.effective ≤ b.effective)) (hstarted : starts es ≠ [])
    (hstarts : ∀ date ∈ starts es, date ≤ c.effective) (hc : c.payload = .change target)
    (hfs : fs.map (·.payload) = names.map .phase) :
    course (es ++ c :: fs) = some { target with phase := names.getLastD target.phase } := by
  have hctype : c.type = .change := congrArg Payload.type hc
  have hftype : ∀ f ∈ fs, f.type = .phase := by
    intro f hf
    obtain ⟨name, -, hname⟩ := List.mem_map.1 (hfs ▸ List.mem_map_of_mem hf)
    exact congrArg Payload.type hname.symm
  have htypes : ∀ f ∈ c :: fs, f.type = .change ∨ f.type = .phase := by
    intro f hf
    rcases List.mem_cons.1 hf with rfl | hf
    · exact .inl hctype
    · exact .inr (hftype f hf)
  obtain ⟨-, hordc, hrise⟩ := List.pairwise_append.1 hord
  have hbefore : ∀ e ∈ es, e ∈ effectiveEvents (es ++ c :: fs) → e.isMove = true →
      ∀ f ∈ c :: fs, e.Before f := by
    intro e he heff hmove f hf
    have hcf : c.effective ≤ f.effective := by
      rcases List.mem_cons.1 hf with rfl | hf
      · exact Int.le_refl _
      · exact (List.pairwise_cons.1 hdate).1 f hf
    -- A change or phase behind the change has lost its effect to it.
    have hec : e.effective ≤ c.effective := Int.not_lt.1 fun hlt =>
      not_isSupersededBy heff (c := c) (by simp) (Event.isSupersededBy_of_move hmove
        (fun hstart => hstarts _ (mem_starts.2 ⟨e, he, hstart, rfl⟩)) hctype
        (hrise e he c (by simp)) hlt)
    exact .of_date_le (Int.le_trans hec hcf) (hrise e he f hf)
  obtain ⟨t, ht, hcourse⟩ := course_append_of_settled hord hids
    (.of_ascending hordc hdate fun f hf => by rcases htypes f hf with h | h <;> simp [h])
    (fun f hf => by rcases htypes f hf with h | h <;> simp [Event.isMove, h]) hbefore
  obtain ⟨t, rfl⟩ := Option.isSome_iff_exists.1 (ht hstarted)
  rw [hcourse, List.map_cons, leads_cons, hc, hfs]
  exact leads_phases target names

theorem effectiveEvents_append_cancels (hids : ((es ++ fs).map (·.id)).Nodup)
    (hfs : ∀ f ∈ fs, f.type = .cancel) :
    ∃ p : Event → Bool, (effectiveEvents (es ++ fs)).filter p = effectiveEvents es ∧
      ∀ e ∈ effectiveEvents (es ++ fs), p e = false → e.type = .cancel := by
  have hnew (f : Event) (hf : f ∈ fs) : f.id ∉ es.map (·.id) := by
    intro hid
    rw [List.map_append, List.nodup_append] at hids
    exact hids.2.2 _ hid _ (List.mem_map_of_mem hf) rfl
  refine ⟨fun e => (es.map (·.id)).contains e.id, ?_, fun e he hnot => ?_⟩
  · have hfront : es.filter (fun e => (es.map (·.id)).contains e.id) = es :=
      List.filter_eq_self.2 fun e he => List.contains_iff_mem.2 (List.mem_map_of_mem he)
    have hback : fs.filter (fun e => (es.map (·.id)).contains e.id) = [] :=
      List.filter_eq_nil_iff.2 fun f hf => fun hid => hnew f hf (List.contains_iff_mem.1 hid)
    rw [← effectiveEvents_filter hids, List.filter_append, hfront, hback, List.append_nil]
    intro e _ c hc _ hec
    rcases List.mem_append.1 hc with hc | hc
    · exact List.contains_iff_mem.2 (List.mem_map_of_mem hc)
    · obtain ⟨-, ⟨-, htype, -⟩ | ⟨-, htype, -⟩⟩ := Event.isSupersededBy_iff.1 hec <;>
        rw [hfs c hc] at htype <;> cases htype
  · rcases List.mem_append.1 (mem_effectiveEvents.1 he).1 with he | he
    · have hold : (es.map (·.id)).contains e.id = true :=
        List.contains_iff_mem.2 (List.mem_map_of_mem he)
      simp only [hold, Bool.true_eq_false] at hnot
    · exact hfs e he

end Histories

/-! ## Histories that complete -/

theorem reached_last (es : List Event) :
    reached es .last = Cursor.start.through (effectiveEvents es) := by
  have hall : (effectiveEvents es).filter (·.effective ≤ .last) = effectiveEvents es :=
    List.filter_eq_self.2 fun e _ => by simpa using e.effective.le_last
  rw [reached, hall]

/-- From an effective cancellation behind all starts on, a history is cancelled. -/
theorem reached_cancelled_of_mem {es : List Event} {e : Event} {t : Instant}
    (hids : (es.map (·.id)).Nodup) (hord : es.Pairwise (fun a b => a.ordering < b.ordering))
    (he : e ∈ effectiveEvents es) (htype : e.type = .cancel) (hle : e.effective ≤ t)
    (hstarts : starts es ≠ [])
    (hbehind : ∀ f ∈ es, f.type.startsSubscription = true → f.Before e) :
    (reached es t).cancelled = true := by
  obtain ⟨front, back, hsplit⟩ := List.append_of_mem he
  have hinOrder := (Settled.ofEffective (hord.imp Nat.ne_of_lt)).inOrder
  rw [hsplit] at hinOrder
  have hback : starts back = [] := starts_eq_nil.2 fun f hf => Bool.eq_false_iff.2 fun hstart => by
    have hmem : f ∈ effectiveEvents es := by simp [hsplit, hf]
    have hef : e.Before f := (List.pairwise_cons.1 (List.pairwise_append.1 hinOrder).2.1).1 f hf
    exact hef.asymm (hbehind f (mem_effectiveEvents.1 hmem).1 hstart)
  have hsofar : front.filter (·.effective ≤ t) = front := List.filter_eq_self.2 fun f hf => by
    have hfe := (List.pairwise_append.1 hinOrder).2.2 f hf e (List.mem_cons_self ..)
    exact decide_eq_true (Int.le_trans hfe.date_le hle)
  have hfrom : (e :: back).filter (·.effective ≤ t) = e :: back.filter (·.effective ≤ t) :=
    List.filter_cons_of_pos (decide_eq_true hle)
  have hlater : starts (back.filter (·.effective ≤ t)) = [] :=
    starts_eq_nil.2 fun f hf => starts_eq_nil.1 hback f (List.mem_filter.1 hf).1
  have hfront : starts front ≠ [] := by
    intro hnil
    have hperm := starts_effectiveEvents hids
    have hself : ¬ e.type.startsSubscription = true := by
      simp [htype, EventType.startsSubscription]
    rw [hsplit, starts_append, starts_cons, if_neg hself, hnil, hback] at hperm
    exact hstarts (List.perm_nil.1 hperm.symm)
  have hcancelled : ((Cursor.start.through front).after e).cancelled = true := by
    have htarget := target_isSome_through hfront
    cases hc : (Cursor.start.through front).cancelled with
    | true =>
      have hself : ¬ e.type.startsSubscription = true := by
        simp [htype, EventType.startsSubscription]
      rw [(after_of_not_live hc).resolve_right hself, hc]
    | false => rw [after_of_active hc rfl, if_pos htype, htarget]
  rw [reached, hsplit, List.filter_append, hsofar, hfrom, Cursor.through_append,
    Cursor.through_cons, through_of_not_live hcancelled hlater, hcancelled]

theorem reached_last_cancelled {es : List Event} {e : Event} (hids : (es.map (·.id)).Nodup)
    (hord : es.Pairwise (fun a b => a.ordering < b.ordering)) (hno : ∀ c ∈ es, c.type ≠ .uncancel)
    (he : e ∈ es) (htype : e.type = .cancel) (hstarts : starts es ≠ [])
    (hbehind : ∀ f ∈ es, f.type.startsSubscription = true → f.Before e) :
    (reached es .last).cancelled = true := by
  refine reached_cancelled_of_mem hids hord ?_ htype e.effective.le_last hstarts hbehind
  refine (mem_effectiveEvents_iff hids).2 ⟨he, fun c hc hlost => ?_⟩
  obtain ⟨-, ⟨hkind, -⟩ | ⟨-, huncancel, -⟩⟩ := Event.isSupersededBy_iff.1 hlost
  · simp [htype] at hkind
  · exact hno c hc huncancel

/-- Cancelled in the end, or on course for a phase that has no successor. -/
def Catalog.Completes (catalog : Catalog) (es : List Event) : Prop :=
  (reached es .last).cancelled = true ∨ ∀ t, course es = some t → catalog.IsFinal t

namespace Catalog.Completes

variable {catalog : Catalog} {es fs : List Event}

theorem isFinal {category : Category} (h : catalog.Completes es) {st : Standing}
    (hst : finalStanding es category = some st) (hlive : st.isCancelled = false) :
    ∃ t, st.target? = some t ∧ catalog.IsFinal t := by
  obtain ⟨hstarted, hcancelled, htarget⟩ := standingAt_spec hst (Instant.le_last _)
  rw [hcancelled] at hlive
  obtain ⟨t, ht⟩ := Option.isSome_iff_exists.1 hstarted
  have hcourse : course es = some t := by
    rw [← ht]
    rw [reached_last] at hlive ⊢
    exact (target_through (fun _ => rfl) hlive).symm
  refine ⟨t, (htarget hlive).trans ht, ?_⟩
  rcases h with h | h
  · rw [hlive] at h
    cases h
  · exact h t hcourse

theorem append_cancels (h : catalog.Completes es) (hids : ((es ++ fs).map (·.id)).Nodup)
    (hfs : ∀ f ∈ fs, f.type = .cancel) : catalog.Completes (es ++ fs) := by
  rcases h with h | h
  · left
    obtain ⟨p, hold, hcancels⟩ := effectiveEvents_append_cancels hids hfs
    have hmore := through_of_more_cancels (c := .start) hcancels (.inr rfl)
    rw [hold, ← reached_last, ← reached_last] at hmore
    exact hmore.elim id fun hsame => hsame ▸ h
  · right
    rw [course_append_of_not_moves hids fun f hf => by
      simp [Event.isMove, hfs f hf, EventType.startsSubscription]]
    exact h

end Catalog.Completes

/-! ## Subscriptions without their cancellations -/

namespace Subscription

/-- The position that a subscription would end on if it had not been cancelled. -/
def course (sub : Subscription) : Option Target :=
  (finalStanding (sub.events.filter (·.type != .cancel)) sub.category).bind (·.target?)

/-- Without its cancellations the subscription would end on a phase that has no successor. -/
def IsOnCourse (sub : Subscription) (catalog : Catalog) : Prop :=
  ∀ target, sub.course = some target → catalog.IsFinal target

theorem course_eq {sub : Subscription} (hids : (sub.events.map (·.id)).Nodup) :
    sub.course = Tenure.course sub.events := by
  generalize hes : sub.events.filter (·.type != .cancel) = es
  have hidsLeft : (es.map (·.id)).Nodup := hes ▸ hids.sublist (List.filter_sublist.map _)
  have hcancels : ∀ e ∈ Tenure.effectiveEvents es, e.type ≠ .cancel := by
    intro e he
    have hmem := (mem_effectiveEvents.1 he).1
    rw [← hes] at hmem
    simpa using (List.mem_filter.1 hmem).2
  have hsame : Tenure.course es = Tenure.course sub.events := by
    rw [course_eq_moves hidsLeft, course_eq_moves hids, ← hes, filter_isMove_filter_cancel]
  rw [course, hes, ← hsame]
  cases hst : finalStanding es sub.category with
  | none =>
    have hnone := (standingAt_eq_none hidsLeft).1 hst
    have hperm := starts_effectiveEvents hidsLeft
    rw [hnone, List.perm_nil] at hperm
    exact (leads_of_not_starts hperm).symm
  | some st =>
    obtain ⟨-, -, htarget⟩ := standingAt_spec hst (Instant.le_last _)
    rw [reached_last] at htarget
    have hlive := cancelled_through (c := .start) rfl hcancels
    exact (htarget hlive).trans (target_through (fun _ => rfl) hlive)

end Subscription

end Tenure
