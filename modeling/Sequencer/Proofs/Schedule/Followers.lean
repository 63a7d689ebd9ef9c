import Sequencer.Proofs.Schedule.Intervals

set_option autoImplicit false

/-!
# States in which a sequence goes on

The walk over a schedule takes a new state for each segment that follows another one in a sequence. So every state but
the first one is the state in which exactly one of these segments is entered.
-/

namespace Sequencer

open Control Numbering

namespace Schedule

variable (s : Schedule)

mutual
/-- The segments that follow another one in a sequence, in the order of the walk. -/
def followers : Outline → List Nat
  | .node i os =>
    match s.segment i with
    | .ok seg => if seg.kind = .leaf then [] else followersAll seg.kind os
    | .error _ => []
def followersAll (kind : SegmentKind) : List Outline → List Nat
  | [] => []
  | o :: os =>
    followers o ++ (if kind = .seq then os.head?.toList.map Outline.index else []) ++ followersAll kind os
end

/-- The state in which the segment at `i` is entered. -/
def entryOf (i : Nat) : Option Nat := (s.segment i).toOption.bind Segment.firstState?

variable {s} {m : Module} {kind : SegmentKind} {maxState entry lo hi : Nat}

theorem entryOf_eq {i : Nat} {seg : Segment} (hseg : s.segment i = .ok seg) : s.entryOf i = seg.firstState? := by
  rw [entryOf, hseg]
  rfl

theorem StatedAll.le : (os : List Outline) → ∀ {lo entry : Nat}, s.StatedAll kind entry lo hi os → lo ≤ hi
  | [], _, _, h => Nat.le_of_eq h
  | _ :: os, lo, entry, ⟨mid, hstated, h⟩ => by
    obtain ⟨_, _, _, hlo, _⟩ := hstated.segment
    split at h
    · exact hlo.trans ((Nat.le_succ mid).trans (StatedAll.le os h))
    · exact hlo.trans (StatedAll.le os h)

mutual
/-- Each new state of a walk is that in which a segment is entered that follows another one. -/
theorem Stated.followers : (o : Outline) → ∀ {entry lo hi : Nat}, s.Stated entry lo hi o →
    (s.followers o).map s.entryOf = (List.range' (lo + 1) (hi - lo)).map some
  | .node i os, entry, lo, hi, h => by
    obtain ⟨seg, hseg, _, _, _, h⟩ := h
    rw [Schedule.followers, hseg]
    dsimp only
    split at h
    · rename_i hleaf
      rw [if_pos hleaf, h, Nat.sub_self]
      rfl
    · rename_i hleaf
      rw [if_neg hleaf]
      exact StatedAll.followers os h
theorem StatedAll.followers : (os : List Outline) → ∀ {kind : SegmentKind} {entry lo hi : Nat},
    s.StatedAll kind entry lo hi os → (s.followersAll kind os).map s.entryOf = (List.range' (lo + 1) (hi - lo)).map some
  | [], kind, entry, lo, hi, h => by
    have hlo : lo = hi := h
    rw [hlo, Nat.sub_self]
    rfl
  | o :: os, kind, entry, lo, hi, ⟨mid, hstated, h⟩ => by
    obtain ⟨_, _, _, hlo, _⟩ := hstated.segment
    rw [followersAll, List.map_append, List.map_append, Stated.followers o hstated]
    split at h
    · -- The next segment of the sequence is entered in a new state.
      rename_i hseq
      rw [StatedAll.followers os h, if_pos hseq.1]
      obtain ⟨o', os', rfl⟩ : ∃ o' os', os = o' :: os' := List.exists_cons_of_ne_nil (by simpa using hseq.2)
      have hle := StatedAll.le _ h
      obtain ⟨mid', hstated', _⟩ := h
      obtain ⟨seg', hseg', _, _, hstates'⟩ := hstated'.segment
      have hentry : s.entryOf o'.index = some (mid + 1) := by
        rw [entryOf_eq hseg', Segment.firstState?, hstates', span, List.head?_cons]
      have hrange : List.range' (lo + 1) (hi - lo) =
          List.range' (lo + 1) (mid - lo) ++ ([mid + 1] ++ List.range' (mid + 1 + 1) (hi - (mid + 1))) := by
        rw [List.singleton_append, ← List.range'_succ, show hi - lo = mid - lo + (hi - (mid + 1) + 1) by omega,
          ← List.range'_append_1, show lo + 1 + (mid - lo) = mid + 1 by omega]
      rw [hrange, List.head?_cons, Option.toList_some, List.map_singleton, List.map_singleton, hentry, List.map_append,
        List.map_append, List.append_assoc]
      rfl
    · rename_i hlast
      have hnone : (if kind = .seq then os.head?.toList.map Outline.index else []) = [] := by
        split
        · rename_i hseq
          rw [show os = [] by simpa [hseq] using hlast]
          rfl
        · rfl
      have hle := StatedAll.le _ h
      rw [StatedAll.followers os h, hnone, List.map_nil, List.append_nil, ← List.map_append,
        show hi - lo = mid - lo + (hi - mid) by omega, ← List.range'_append_1, show lo + 1 + (mid - lo) = mid + 1 by omega]
end

theorem mem_followersAll_of_tail {o : Outline} {os : List Outline} (ho : o ∈ os.tail) :
    o.index ∈ s.followersAll .seq os := by
  induction os with
  | nil => cases ho
  | cons a os ih =>
    cases os with
    | nil => cases ho
    | cons a' os =>
      rw [followersAll, if_pos rfl]
      rcases List.mem_cons.1 ho with rfl | ho
      · simp
      · exact List.mem_append_right _ (ih ho)

theorem mem_followersAll_of_mem {o : Outline} {os : List Outline} (ho : o ∈ os) {j : Nat} (hj : j ∈ s.followers o) :
    j ∈ s.followersAll kind os := by
  induction os with
  | nil => cases ho
  | cons a os ih =>
    rw [followersAll]
    rcases List.mem_cons.1 ho with rfl | ho
    · exact List.mem_append_left _ (List.mem_append_left _ hj)
    · exact List.mem_append_right _ (ih ho)

/-- What follows another segment below a part of an outline does so below the outline. -/
theorem mem_followers_of_part {o o' : Outline} (hc : Consistent m s maxState o) (hpart : o'.Part o) {j : Nat}
    (hj : j ∈ s.followers o') : j ∈ s.followers o := by
  induction hpart with
  | refl => exact hj
  | @nested o o' i os ho _ ih =>
    cases hc with
    | leaf => cases ho
    | block hfits hos =>
      rw [followers, hfits.segment]
      dsimp only
      rw [if_neg hfits.not_leaf]
      exact mem_followersAll_of_mem ho (ih (hos o ho) hj)

/-- Segments that follow others are told apart by the state in which they are entered. -/
theorem eq_of_entryOf {o : Outline} (h : s.Stated entry lo hi o) {j j' : Nat} (hj : j ∈ s.followers o)
    (hj' : j' ∈ s.followers o) (heq : s.entryOf j = s.entryOf j') : j = j' := by
  have hnodup : ((s.followers o).map s.entryOf).Nodup := by
    rw [h.followers]
    exact List.Nodup.map (Option.some_injective _) (List.nodup_range' 1)
  exact List.inj_on_of_nodup_map hnodup hj hj' heq

/-- The state in which a segment is entered is the least of its states. -/
theorem Stated.entry_le {o : Outline} (h : s.Stated entry lo hi o) {seg : Segment}
    (hseg : s.segment o.index = .ok seg) {x y : Nat} (hx : seg.firstState? = some x) (hy : y ∈ seg.states) : x ≤ y := by
  obtain ⟨seg', hseg', hentry, _, hstates⟩ := h.segment
  cases hseg.symm.trans hseg'
  rw [Segment.firstState?, hstates, span, List.head?_cons] at hx
  cases hx
  rw [hstates, mem_span] at hy
  omega

/-- All states of a segment are less than that in which a later segment of its sequence is entered. -/
theorem StatedAll.before {os : List Outline} {segs : List Segment}
    (hsegs : List.Forall₂ (fun o c => s.segment o.index = .ok c) os segs) (hentry : entry ≤ lo)
    (h : s.StatedAll .seq entry lo hi os) :
    segs.Pairwise fun c d => ∀ y ∈ c.states, ∀ x, d.firstState? = some x → y < x := by
  induction hsegs generalizing entry lo with
  | nil => exact .nil
  | @cons o c os segs hc hsegs ih =>
    obtain ⟨mid, hstated, h⟩ := h
    obtain ⟨c', hc', _, hlo, hstates⟩ := hstated.segment
    cases hc.symm.trans hc'
    split at h
    · refine List.pairwise_cons.2 ⟨?_, ih (Nat.le_refl _) h⟩
      intro d hd y hy x hx
      have hmem := (h.facts hsegs (Nat.le_refl _)).2.2.1 d hd x (first_mem hx)
      rw [mem_span] at hmem
      rw [hstates, mem_span] at hy
      omega
    · rename_i hlast
      have hos : os = [] := by simpa using hlast
      subst hos
      cases hsegs
      exact List.pairwise_singleton _ _

end Schedule

end Sequencer
