import Tenure.Proofs.Planning
import Tenure.Proofs.Rewriting

/-!
# Deletions cut a tail

An edit lists identifiers of events to delete, in any order and some of them more than once.

**Theorem (`deletions_cut_tails`).** The deletions are accepted just when they name the events from
some place of the timeline on, and then that is where the subscription is cut. An identifier that is
not on the timeline is refused for this, and all else because an event in between is kept. The edit
as a whole is accepted if its proposals, by date, are of the right types and build the subscription
anew exactly where nothing of it is kept.

Cutting goes through the timeline once. It keeps events up to the first one deleted, and no further
event may be missing from the list. Since identifiers are distinct, what is listed is then what
stands behind the cut, and the other way round (`cutsTail_iff`).
-/

namespace Tenure

/-! ## Cutting -/

/-- The timeline is cut in two, and the identifiers are those of the events behind the cut. -/
structure CutsTail (visible : List Event) (deleted : List EventId) (kept cut : List Event) :
    Prop where
  whole : kept ++ cut = visible
  named : ∀ i, i ∈ deleted ↔ i ∈ cut.map (·.id)

section Cutting

variable {i : SubscriptionId} {visible kept cut : List Event} {deleted : List EventId}

theorem cutsTail_iff (hids : (visible.map (·.id)).Nodup) : CutsTail visible deleted kept cut ↔
    visible = kept ++ cut ∧ (∀ e ∈ cut, e.id ∈ deleted) ∧ (∀ e ∈ kept, e.id ∉ deleted) ∧
      ∀ i ∈ deleted, ∃ e ∈ visible, e.id = i := by
  constructor
  · rintro ⟨rfl, hnamed⟩
    rw [List.map_append, List.nodup_append] at hids
    refine ⟨rfl, fun e he => (hnamed _).2 (List.mem_map_of_mem he), fun e he hdeleted => ?_,
      fun i hi => ?_⟩
    · exact hids.2.2 _ (List.mem_map_of_mem he) _ ((hnamed _).1 hdeleted) rfl
    · obtain ⟨e, he, hid⟩ := List.mem_map.1 ((hnamed i).1 hi)
      exact ⟨e, List.mem_append_right _ he, hid⟩
  · rintro ⟨rfl, hcut, hkept, hexist⟩
    refine ⟨rfl, fun i => ⟨fun hi => ?_, fun hi => ?_⟩⟩
    · obtain ⟨e, he, rfl⟩ := hexist i hi
      rcases List.mem_append.1 he with he | he
      · exact absurd hi (hkept e he)
      · exact List.mem_map_of_mem he
    · obtain ⟨e, he, rfl⟩ := List.mem_map.1 hi
      exact hcut e he

theorem cutTail_eq_ok_iff (hids : (visible.map (·.id)).Nodup) :
    cutTail i visible deleted = .ok (kept, cut) ↔ CutsTail visible deleted kept cut := by
  rw [Rework.cutTail_eq_ok, cutsTail_iff hids]

/-- A refusal names what is missing or, where nothing is, an event that is kept. -/
theorem cutTail_eq_error {fault : RepairError} (h : cutTail i visible deleted = .error fault) :
    (∃ j ∈ deleted, j ∉ visible.map (·.id) ∧ fault = .nonExistentDeleteEvent i j) ∨
      (∀ j ∈ deleted, j ∈ visible.map (·.id)) ∧
        ∃ e ∈ visible, e.id ∉ deleted ∧ fault = .invalidDeleteSet i e.id e.effective := by
  unfold cutTail at h
  split at h
  next j hmissing =>
    cases h
    refine .inl ⟨j, List.mem_of_find?_eq_some hmissing, ?_, rfl⟩
    simpa using List.find?_some hmissing
  next hexist =>
    simp only at h
    split at h
    next e hlate =>
      cases h
      refine .inr ⟨fun j hj => ?_, e, ?_, by simpa using List.find?_some hlate, rfl⟩
      · simpa using List.find?_eq_none.1 hexist j hj
      · exact (List.dropWhile_suffix _).subset (List.mem_of_find?_eq_some hlate)
    · cases h

theorem cutTail_missing_iff :
    (∃ j, cutTail i visible deleted = .error (.nonExistentDeleteEvent i j)) ↔
      ∃ j ∈ deleted, j ∉ visible.map (·.id) := by
  constructor
  · rintro ⟨j, hfault⟩
    rcases cutTail_eq_error hfault with ⟨k, hk, hmissing, -⟩ | ⟨-, e, -, -, hother⟩
    · exact ⟨k, hk, hmissing⟩
    · cases hother
  · rintro ⟨j, hj, hmissing⟩
    cases hcut : cutTail i visible deleted with
    | ok parts =>
      obtain ⟨-, -, -, hexist⟩ := Rework.cutTail_eq_ok.1 hcut
      exact absurd (List.mem_map.2 (hexist j hj)) hmissing
    | error fault =>
      rcases cutTail_eq_error hcut with ⟨k, -, -, rfl⟩ | ⟨hall, -⟩
      · exact ⟨k, rfl⟩
      · exact absurd (hall j hj) hmissing

theorem cutTail_gap_iff (hids : (visible.map (·.id)).Nodup) :
    (∃ j date, cutTail i visible deleted = .error (.invalidDeleteSet i j date)) ↔
      (∀ j ∈ deleted, j ∈ visible.map (·.id)) ∧
        ¬ ∃ kept cut, CutsTail visible deleted kept cut := by
  constructor
  · rintro ⟨j, date, hfault⟩
    rcases cutTail_eq_error hfault with ⟨_, -, -, hother⟩ | ⟨hall, -⟩
    · cases hother
    · refine ⟨hall, fun ⟨kept, cut, hcut⟩ => ?_⟩
      rw [(cutTail_eq_ok_iff hids).2 hcut] at hfault
      cases hfault
  · rintro ⟨hall, hnone⟩
    cases hcut : cutTail i visible deleted with
    | ok parts => exact absurd ⟨parts.1, parts.2, (cutTail_eq_ok_iff hids).1 hcut⟩ hnone
    | error fault =>
      rcases cutTail_eq_error hcut with ⟨j, hj, hmissing, -⟩ | ⟨-, e, -, -, rfl⟩
      · exact absurd (hall j hj) hmissing
      · exact ⟨e.id, e.effective, rfl⟩

end Cutting

/-! ## Proposals -/

namespace Proposal

/-- Creations, changes and cancellations, of which only the first may be a creation. -/
structure WellShaped (ps : List Proposal) : Prop where
  allowed : ∀ p ∈ ps, p.type = .create ∨ p.type = .reCreate ∨ p.type = .change ∨ p.type = .cancel
  front : ∀ p ∈ ps.tail, p.type ≠ .create ∧ p.type ≠ .reCreate

theorem isRecreation_iff {p : Proposal} :
    p.type.isRecreation = true ↔ p.type = .create ∨ p.type = .reCreate := by
  cases p.type <;> simp [EventType.isRecreation]

theorem isFollowUp_iff {p : Proposal} :
    p.isFollowUp = true ↔ p.type = .change ∨ p.type = .cancel := by
  simp [isFollowUp]

theorem firstDisallowed?_eq_none {ps : List Proposal} :
    firstDisallowed? ps = none ↔ WellShaped ps := by
  cases ps with
  | nil => exact iff_of_true rfl ⟨by simp, by simp⟩
  | cons p ps =>
    have hrest : ps.find? (fun q => !q.isFollowUp) = none ↔
        ∀ q ∈ ps, q.type = .change ∨ q.type = .cancel := by
      simp [isFollowUp_iff]
    rw [firstDisallowed?]
    split
    next hfirst =>
      rw [Bool.or_eq_true, isRecreation_iff, isFollowUp_iff, or_assoc] at hfirst
      rw [hrest]
      constructor
      · intro hall
        refine ⟨List.forall_mem_cons.2 ⟨hfirst, fun q hq => .inr (.inr (hall q hq))⟩,
          fun q hq => ?_⟩
        rcases hall q hq with hq | hq <;> simp [hq]
      · intro hps q hq
        have hfront := hps.front q hq
        simpa [hfront.1, hfront.2] using hps.allowed q (List.mem_cons_of_mem _ hq)
    next hfirst =>
      rw [Bool.or_eq_true, isRecreation_iff, isFollowUp_iff, or_assoc] at hfirst
      exact iff_of_false (Option.some_ne_none p) fun hps =>
        hfirst (hps.allowed p List.mem_cons_self)

end Proposal

/-! ## Edits -/

/-- What is wrong lies in the deletions. -/
def RepairError.isOfDeletions : RepairError → Bool
  | .nonExistentDeleteEvent .. | .invalidDeleteSet .. => true
  | _ => false

namespace Rework

variable {sub : Subscription} {deleted : List EventId} {proposals : List Proposal}

/-- Once a tail is cut, nothing is wrong with the deletions any more. -/
theorem prepare_eq_error_iff {fault : RepairError} (h : fault.isOfDeletions = true) :
    prepare sub deleted proposals = .error fault ↔
      cutTail sub.id sub.effectiveEvents deleted = .error fault := by
  rw [prepare]
  cases cutTail sub.id sub.effectiveEvents deleted with
  | error other => simp [bind, Except.bind]
  | ok parts =>
    refine iff_of_false (fun hfault => ?_) fun hfault => by cases hfault
    simp only [bind, Except.bind] at hfault
    split at hfault
    · cases hfault
      cases h
    · split at hfault <;> cases hfault <;> cases h

theorem isRecreated_iff {w : Rework} : w.isRecreated = true ↔
    ∃ p ∈ w.proposals.head?, p.type = .create ∨ p.type = .reCreate := by
  rw [isRecreated, Option.any_eq_true]
  simp only [Proposal.isRecreation_iff, Option.mem_def]

theorem prepare_eq_ok_iff (hids : (sub.effectiveEvents.map (·.id)).Nodup) {w : Rework} :
    prepare sub deleted proposals = .ok w ↔
      ∃ kept cut, CutsTail sub.effectiveEvents deleted kept cut ∧
        Proposal.WellShaped (sortBy Proposal.dateLe proposals) ∧
        (kept = [] ↔ ∃ p ∈ (sortBy Proposal.dateLe proposals).head?,
          p.type = .create ∨ p.type = .reCreate) ∧
        w = ⟨sub, kept, cut, deleted, sortBy Proposal.dateLe proposals, []⟩ := by
  simp only [prepare_passes, cutTail_eq_ok_iff hids, Proposal.firstDisallowed?_eq_none]
  constructor
  · rintro ⟨hcut, hshape, hrecreated, rfl, rfl, hproposals, hadded⟩
    rw [isRecreated_iff] at hrecreated
    rw [hproposals] at hshape hrecreated
    refine ⟨w.kept, w.cut, hcut, hshape, hrecreated.symm, ?_⟩
    rw [← hproposals, ← hadded]
  · rintro ⟨kept, cut, hcut, hshape, hkept, rfl⟩
    exact ⟨hcut, hshape, isRecreated_iff.trans hkept.symm, rfl, rfl, rfl, rfl⟩

end Rework

/-- **Deletions cut a tail.** A cut is made just where the identifiers listed are those of the
events from there on. It is refused for an identifier that is not on the timeline, if there is one,
and for a gap if there is none and no such cut. With a cut, the edit is accepted just if its
proposals, by date, are creations, changes and cancellations, a creation at most in front, and there
is one in front just where nothing is kept. The first date cut is that of the first event behind the
cut. -/
theorem deletions_cut_tails {sub : Subscription} (hids : (sub.events.map (·.id)).Nodup)
    (deleted : List EventId) (proposals : List Proposal) :
    (∀ kept cut, cutTail sub.id sub.effectiveEvents deleted = .ok (kept, cut) ↔
      CutsTail sub.effectiveEvents deleted kept cut) ∧
    ((∃ i, Rework.prepare sub deleted proposals = .error (.nonExistentDeleteEvent sub.id i)) ↔
      ∃ i ∈ deleted, i ∉ sub.effectiveEvents.map (·.id)) ∧
    ((∃ i date, Rework.prepare sub deleted proposals = .error (.invalidDeleteSet sub.id i date)) ↔
      (∀ i ∈ deleted, i ∈ sub.effectiveEvents.map (·.id)) ∧
        ¬ ∃ kept cut, CutsTail sub.effectiveEvents deleted kept cut) ∧
    ∀ w, Rework.prepare sub deleted proposals = .ok w ↔
      ∃ kept cut, CutsTail sub.effectiveEvents deleted kept cut ∧
        Proposal.WellShaped (sortBy Proposal.dateLe proposals) ∧
        (kept = [] ↔ ∃ p ∈ (sortBy Proposal.dateLe proposals).head?,
          p.type = .create ∨ p.type = .reCreate) ∧
        w = ⟨sub, kept, cut, deleted, sortBy Proposal.dateLe proposals, []⟩ ∧
        w.firstCut? = cut.head?.map (·.effective) := by
  have hvisible := nodup_ids_effectiveEvents hids
  refine ⟨fun kept cut => cutTail_eq_ok_iff hvisible, ?_, ?_, fun w => ?_⟩
  · exact (exists_congr fun i => Rework.prepare_eq_error_iff rfl).trans cutTail_missing_iff
  · exact (exists_congr fun i => exists_congr fun date => Rework.prepare_eq_error_iff rfl).trans
      (cutTail_gap_iff hvisible)
  · refine (Rework.prepare_eq_ok_iff hvisible).trans
      (exists_congr fun kept => exists_congr fun cut => ?_)
    refine and_congr_right fun _ => and_congr_right fun _ => and_congr_right fun _ => ?_
    exact (and_iff_left_of_imp fun hw => congrArg Rework.firstCut? hw).symm

namespace Sample

/-- A base plan whose cancellation was taken back and made again. -/
def recancelled : Subscription where
  id := ⟨1⟩
  bundle := ⟨1⟩
  category := .base
  start := day 0
  bundleStart := day 0
  alignStart := day 0
  chargedThrough := none
  version := 1
  events := history

end Sample

/-- The last two events can be deleted, in any order and named twice. The one before the last cannot
be deleted alone, and the phase not at all, for it has lost its effect. -/
theorem deletions_cut_tails_sample :
    (∃ w, Rework.prepare Sample.recancelled [⟨6⟩, ⟨4⟩, ⟨6⟩] [⟨.cancel, Sample.day 30, none, none⟩] =
        .ok w ∧ w.kept.map (·.id) = [⟨1⟩, ⟨5⟩] ∧ w.firstCut? = some (Sample.day 20)) ∧
      (∃ i date,
        Rework.prepare Sample.recancelled [⟨4⟩] [] = .error (.invalidDeleteSet ⟨1⟩ i date)) ∧
      ∃ i, Rework.prepare Sample.recancelled [⟨2⟩] [] = .error (.nonExistentDeleteEvent ⟨1⟩ i) := by
  have hids : (Sample.recancelled.events.map (·.id)).Nodup := by decide
  obtain ⟨hcut, -, -, hok⟩ := deletions_cut_tails hids [⟨6⟩, ⟨4⟩, ⟨6⟩]
    [⟨.cancel, Sample.day 30, none, none⟩]
  obtain ⟨hcut', -, hgap, -⟩ := deletions_cut_tails hids [⟨4⟩] []
  obtain ⟨-, hmissing, -⟩ := deletions_cut_tails hids [⟨2⟩] []
  refine ⟨⟨_, (hok _).2 ⟨_, _, (hcut _ _).1 rfl, ⟨by decide, by decide⟩, by decide, rfl, rfl⟩,
    by decide, by decide⟩, hgap.2 ⟨by decide, ?_⟩, hmissing.2 (by decide)⟩
  rintro ⟨kept, cut, htail⟩
  have hrefused := (hcut' kept cut).2 htail
  cases hrefused

end Tenure
