import Mathlib.Algebra.Ring.Nat
import Sequencer.Proofs.Schedule.Live
import Sequencer.Proofs.Schedule.Progress

set_option autoImplicit false

/-!
# Intervals of states

Staging gives each segment the state in which it is entered and an interval of larger states. Segments in a sequence have
disjoint states in ascending order, and branches share the state in which they are entered and no other. There are as
many states as steps from one segment of a sequence to the next, and the first one.
-/

namespace Sequencer

open Control Numbering

namespace Segment

/-- The states that a segment takes for the segments below it: one for each after the first, if they run one after the
other. -/
def newStates (seg : Segment) : Nat := if seg.kind = .seq then seg.children.length - 1 else 0

/-- How the states of a segment are made of those of the segments below it. -/
structure Spans (seg : Segment) (segs : List Segment) : Prop where
  seq_first : seg.kind = .seq → ∀ c, segs.head? = some c → c.firstState? = seg.firstState?
  seq_apart : seg.kind = .seq → segs.Pairwise fun c d => (∀ x ∈ c.states, x ∉ d.states) ∧
    ∃ x y, c.firstState? = some x ∧ d.firstState? = some y ∧ x < y
  mutex_first : seg.kind = .mutex → ∀ c ∈ segs, c.firstState? = seg.firstState?
  mutex_shared : seg.kind = .mutex → segs.Pairwise fun c d => ∀ x, x ∈ c.states ∧ x ∈ d.states ↔ seg.firstState? = some x
  union : segs ≠ [] → ∀ x, x ∈ seg.states ↔ ∃ c ∈ segs, x ∈ c.states
  single : segs = [] → ∃ entry, seg.states = [entry]

end Segment

namespace Schedule

/-- The states that the segments at the given indices take. -/
def newStates (s : Schedule) (js : List Nat) : Nat :=
  (js.map fun j => (s.segment j).toOption.elim 0 Segment.newStates).sum

/-- The states that a walk over the schedule gives out. -/
structure Intervals (s : Schedule) (maxState : Nat) : Prop where
  walk : s.Stated 0 0 maxState (s.outline s.root)
  interval : ∀ i seg, s.segment i = .ok seg → ∃ entry before, entry ≤ before ∧
    seg.states = entry :: List.range' (before + 1) (s.newStates (s.outline i).preorder)
  below : ∀ i seg, s.segment i = .ok seg → ∃ segs, seg.children.mapM s.segment = .ok segs ∧ seg.Spans segs
  root : ∃ seg, s.segment s.root = .ok seg ∧ seg.states = List.range (maxState + 1)
  total : maxState = (s.segments.toList.map Segment.newStates).sum

theorem newStates_append (s : Schedule) (js js' : List Nat) :
    s.newStates (js ++ js') = s.newStates js + s.newStates js' := by
  rw [newStates, List.map_append, List.sum_append, newStates, newStates]

theorem newStates_cons {s : Schedule} {i : Nat} {seg : Segment} (hseg : s.segment i = .ok seg) (js : List Nat) :
    s.newStates (i :: js) = seg.newStates + s.newStates js := by
  rw [newStates, List.map_cons, List.sum_cons, hseg, newStates]
  rfl

theorem newStates_range (s : Schedule) :
    s.newStates (List.range s.segments.size) = (s.segments.toList.map Segment.newStates).sum := by
  rw [newStates]
  congr 1
  refine List.ext_getElem (by simp [Arena.size, Arena.toList]) ?_
  intro i hi _
  have hlt : i < s.segments.items.size := by simpa [Arena.size] using hi
  have hget : s.segment i = .ok s.segments.items[i] := by
    rw [segment, Arena.get_eq_ok_iff]
    exact Array.getElem?_eq_getElem hlt
  rw [List.getElem_map, List.getElem_map, List.getElem_range, hget]
  rfl

section Walk

variable {m : Module} {s : Schedule} {kind : SegmentKind} {maxState entry lo hi : Nat} {os : List Outline}

/-- The largest state grows by one for each step to the next segment of a sequence. -/
theorem StatedAll.grows (h : s.StatedAll kind entry lo hi os)
    (hos : ∀ o ∈ os, ∀ e l k, s.Stated e l k o → k = l + s.newStates o.preorder) :
    hi = lo + (if kind = .seq then os.length - 1 else 0) + s.newStates (os.flatMap Outline.preorder) := by
  induction os generalizing entry lo with
  | nil =>
    have hlo : lo = hi := h
    simp [newStates, hlo]
  | cons o os ih =>
    obtain ⟨mid, hstated, h⟩ := h
    obtain ⟨ho, hos⟩ := List.forall_mem_cons.1 hos
    have hmid := ho entry lo mid hstated
    rw [List.flatMap_cons, newStates_append]
    split at h
    · rename_i hseq
      have hrest := ih h hos
      have hpos : 0 < os.length := List.length_pos_iff.2 (by simpa using hseq.2)
      rw [if_pos hseq.1] at hrest ⊢
      rw [List.length_cons]
      omega
    · rename_i hseq
      have hrest := ih h hos
      by_cases hkind : kind = .seq
      · have hnil : os = [] := by simpa [hkind] using hseq
        subst hnil
        rw [if_pos hkind] at hrest ⊢
        simp only [List.length_nil, List.length_singleton] at hrest ⊢
        omega
      · rw [if_neg hkind] at hrest ⊢
        omega

theorem Stated.grows {o : Outline} (hc : Consistent m s maxState o) (h : s.Stated entry lo hi o) :
    hi = lo + s.newStates o.preorder := by
  induction hc generalizing entry lo hi with
  | @leaf i seg hfits =>
    obtain ⟨seg', hseg', _, _, _, h⟩ := h
    cases hfits.segment.symm.trans hseg'
    rw [if_pos hfits.kind] at h
    have hnew : s.newStates (Outline.node i []).preorder = seg.newStates := newStates_cons hfits.segment []
    rw [hnew, Segment.newStates, if_neg (by simp [hfits.kind]), h, Nat.add_zero]
  | @block i n b seg os segs hfits _ ih =>
    obtain ⟨seg', hseg', _, _, _, h⟩ := h
    cases hfits.segment.symm.trans hseg'
    rw [if_neg hfits.not_leaf] at h
    have hgrows := h.grows fun o ho e l k hst => ih o ho hst
    rw [Outline.preorder_eq, newStates_cons hfits.segment, Segment.newStates, hfits.children, List.length_map]
    omega

/-- Every part of a walk starts and ends with some largest state. -/
theorem Stated.part {o o' : Outline} (hc : Consistent m s maxState o) (h : s.Stated entry lo hi o) (hpart : o'.Part o) :
    Consistent m s maxState o' ∧ ∃ e l k, s.Stated e l k o' := by
  induction hpart generalizing entry lo hi with
  | refl => exact ⟨hc, entry, lo, hi, h⟩
  | @nested o o' i os ho _ ih =>
    cases hc with
    | leaf => exact absurd ho List.not_mem_nil
    | block hfits hos =>
      obtain ⟨seg, hseg, hentry, _, _, h⟩ := h
      cases hfits.segment.symm.trans hseg
      rw [if_neg hfits.not_leaf] at h
      obtain ⟨e, l, k, hst, _⟩ := (h.facts hfits.segments hentry).2.1 o ho
      exact ih (hos o ho) hst

theorem first_mem {seg : Segment} {x : Nat} (h : seg.firstState? = some x) : x ∈ seg.states := List.mem_of_head? h

/-- The segments of a sequence are entered in ascending states. -/
theorem StatedAll.ascending {segs : List Segment} (hsegs : List.Forall₂ (fun o c => s.segment o.index = .ok c) os segs)
    (hentry : entry ≤ lo) (h : s.StatedAll .seq entry lo hi os) :
    segs.Pairwise fun c d => ∃ x y, c.firstState? = some x ∧ d.firstState? = some y ∧ x < y := by
  induction hsegs generalizing entry lo with
  | nil => exact .nil
  | @cons o c os segs hc hsegs ih =>
    obtain ⟨mid, hstated, h⟩ := h
    obtain ⟨c', hc', _, hlo, hstates⟩ := hstated.segment
    cases hc.symm.trans hc'
    have hfirst : c.firstState? = some entry := by rw [Segment.firstState?, hstates, span, List.head?_cons]
    split at h
    · obtain ⟨_, hall, hsub, _⟩ := h.facts hsegs (Nat.le_refl _)
      refine List.pairwise_cons.2 ⟨?_, ih (Nat.le_refl _) h⟩
      intro d hd
      obtain ⟨o', ho', hd'⟩ := exists_of_mem_forall₂ hsegs hd
      obtain ⟨e, l, k, hst, _⟩ := hall o' ho'
      obtain ⟨d', hd'', _, _, hdstates⟩ := hst.segment
      cases hd'.symm.trans hd''
      have hdfirst : d.firstState? = some e := by rw [Segment.firstState?, hdstates, span, List.head?_cons]
      have hmem := hsub d hd e (first_mem hdfirst)
      rw [mem_span] at hmem
      exact ⟨entry, e, hfirst, hdfirst, by omega⟩
    · rename_i hlast
      have hos : os = [] := by simpa using hlast
      subst hos
      cases hsegs
      exact List.pairwise_singleton _ _

/-- Branches share the state in which they are entered and no other. -/
theorem StatedAll.shared {segs : List Segment} (hsegs : List.Forall₂ (fun o c => s.segment o.index = .ok c) os segs)
    (hentry : entry ≤ lo) (hkind : kind ≠ .seq) (h : s.StatedAll kind entry lo hi os) :
    segs.Pairwise fun c d => ∀ x, x ∈ c.states ∧ x ∈ d.states ↔ x = entry := by
  induction hsegs generalizing lo with
  | nil => exact .nil
  | @cons o c os segs hc hsegs ih =>
    obtain ⟨mid, hstated, h⟩ := h
    obtain ⟨c', hc', _, hlo, hstates⟩ := hstated.segment
    cases hc.symm.trans hc'
    rw [if_neg (fun hseq => hkind hseq.1)] at h
    obtain ⟨_, _, hsub, _, _, _, hfirsts, _⟩ := h.facts hsegs (hentry.trans hlo)
    refine List.pairwise_cons.2 ⟨?_, ih (hentry.trans hlo) h⟩
    intro d hd x
    rw [hstates, mem_span]
    constructor
    · rintro ⟨hx, hxd⟩
      have hxs := hsub d hd x hxd
      rw [mem_span] at hxs
      omega
    · rintro rfl
      exact ⟨.inl rfl, first_mem (hfirsts hkind d hd)⟩

theorem BlockFits.spans {i n : Nat} {b : Block} {seg : Segment} {segs : List Segment}
    (hfits : BlockFits m s maxState i os n b seg segs) (h : s.Stated entry lo hi (.node i os)) : seg.Spans segs := by
  obtain ⟨seg', hseg', hentry, _, hstates, h⟩ := h
  cases hfits.segment.symm.trans hseg'
  rw [if_neg hfits.not_leaf] at h
  have hfirst : seg.firstState? = some entry := by rw [Segment.firstState?, hstates, span, List.head?_cons]
  have hstatesFit := hfits.states
  refine ⟨fun _ => hstatesFit.head_eq, ?_, hstatesFit.first_eq, ?_, ?_, ?_⟩
  · intro hk
    rw [hk] at h
    exact (hstatesFit.disjoint hk).and (h.ascending hfits.segments hentry)
  · intro hk
    have hshared := h.shared hfits.segments hentry (by simp [hk])
    refine hshared.imp fun hcd x => (hcd x).trans ?_
    rw [hfirst, Option.some.injEq, eq_comm]
  · intro hne x
    refine ⟨hstatesFit.cover hne x, ?_⟩
    rintro ⟨c, hc, hx⟩
    exact hstatesFit.sub c hc x hx
  · intro hnil
    exact List.length_eq_one_iff.1 (hstatesFit.single hnil)

end Walk

theorem LeafFits.spans {i : Nat} {m : Module} {s : Schedule} {maxState : Nat} {seg : Segment}
    (h : LeafFits m s maxState i seg) : seg.Spans [] where
  seq_first _ _ hc := nomatch hc
  seq_apart _ := .nil
  mutex_first _ _ hc := nomatch hc
  mutex_shared _ := .nil
  union hne := absurd rfl hne
  single _ := List.length_eq_one_iff.1 (h.states.single rfl)

theorem Consistent.unfolds {m : Module} {s : Schedule} {maxState : Nat} {o : Outline} (h : Consistent m s maxState o) :
    o.Unfolds (s.segments.linksAt Segment.children) := by
  have hlinks : ∀ {i : Nat} {seg : Segment}, s.segment i = .ok seg →
      s.segments.linksAt Segment.children i = seg.children := by
    intro i seg hseg
    rw [segment, Arena.get_eq_ok_iff] at hseg
    rw [Arena.linksAt, hseg]
    rfl
  induction h with
  | leaf hfits => exact .node ((hlinks hfits.segment).trans hfits.children) fun o ho => absurd ho List.not_mem_nil
  | block hfits _ ih => exact .node ((hlinks hfits.segment).trans hfits.children) ih

section Root

variable {m : Module} {s : Schedule} {maxState i : Nat} {seg : Segment}
  (hconsistent : Consistent m s maxState (s.outline s.root))
  (hpre : (s.outline s.root).preorder = List.range s.segments.size)
  (hwalk : s.Stated 0 0 maxState (s.outline s.root)) (hseg : s.segment i = .ok seg)

include hconsistent hpre hwalk hseg

/-- Every segment is at the top of a part of the walk. -/
theorem exists_walk : ∃ os entry lo hi, s.outline i = .node i os ∧ Consistent m s maxState (.node i os) ∧
    s.Stated entry lo hi (.node i os) := by
  have hi := mem_preorder_of_segment hpre hseg
  obtain ⟨⟨j, os⟩, hp, rfl⟩ := Outline.exists_part_of_mem hi
  obtain ⟨hc, entry, lo, hi, hstated⟩ := hwalk.part hconsistent hp
  refine ⟨os, entry, lo, hi, ?_, hc, hstated⟩
  refine Arena.outline_eq hc.unfolds (fun x hx => ?_) ((hpre ▸ List.nodup_range).sublist hp.sublist)
  have hx := hp.sublist.subset hx
  rwa [hpre, List.mem_range] at hx

theorem states_interval : ∃ entry before, entry ≤ before ∧
    seg.states = entry :: List.range' (before + 1) (s.newStates (s.outline i).preorder) := by
  obtain ⟨os, entry, lo, hi, houtline, hc, hstated⟩ := exists_walk hconsistent hpre hwalk hseg
  obtain ⟨seg', hseg', hentry, _, hstates⟩ := hstated.segment
  cases hseg.symm.trans hseg'
  refine ⟨entry, lo, hentry, ?_⟩
  rw [hstates, span, hstated.grows hc, houtline, Nat.add_sub_cancel_left]

theorem states_spans : ∃ segs, seg.children.mapM s.segment = .ok segs ∧ seg.Spans segs := by
  obtain ⟨os, entry, lo, hi, _, hc, hstated⟩ := exists_walk hconsistent hpre hwalk hseg
  cases hc with
  | leaf hfits =>
    cases hseg.symm.trans hfits.segment
    refine ⟨[], ?_, hfits.spans⟩
    rw [hfits.children]
    rfl
  | @block _ n b _ _ segs hfits hos =>
    cases hseg.symm.trans hfits.segment
    refine ⟨segs, ?_, hfits.spans hstated⟩
    rw [hfits.children]
    exact Checked.mapM_of_forall₂ (List.forall₂_map_left_iff.2 hfits.segments)

end Root

end Schedule

theorem Module.stage_stated {m : Module} (hwf : m.WellFormed) {s : Schedule} (hs : m.schedule = .ok s) {st : Staged}
    (hst : m.stage s = .ok st) : st.schedule.Stated 0 0 st.maxState (st.schedule.outline st.schedule.root) := by
  obtain ⟨_, hpre, _⟩ := schedule_laid hwf hs
  obtain ⟨n, hn, hrest⟩ := Checked.bind_eq_ok.1 hst
  obtain ⟨m', _, hrest⟩ := Checked.bind_eq_ok.1 hrest
  cases hrest
  obtain ⟨_, halike, hstated⟩ := run_stated (hpre ▸ List.nodup_range) hn
  rw [halike.root, halike.outline]
  exact hstated

/-- Every schedule of a module can be staged, and the states are intervals. -/
theorem Module.stage_intervals {d : Draft} {top : List Nat} {m : Module} (hm : d.finish top = .ok m) {s : Schedule}
    (hs : m.schedule = .ok s) : ∃ st, m.stage s = .ok st ∧ st.schedule.Intervals st.maxState := by
  have hwf := wellFormed_of_finish hm
  obtain ⟨st, hst⟩ := stage_succeeds hwf hs
  obtain ⟨_, hconsistent, hpre, root, hroot⟩ := stage_consistent hwf hs hst
  have hwalk := stage_stated hwf hs hst
  refine ⟨st, hst, hwalk, fun i seg hseg => Schedule.states_interval hconsistent hpre hwalk hseg,
    fun i seg hseg => Schedule.states_spans hconsistent hpre hwalk hseg, ⟨root, hroot.segment, ?_⟩, ?_⟩
  · rw [hroot.states, span, List.range_eq_range', List.range'_succ, Nat.zero_add, Nat.sub_zero]
  · have htotal := hwalk.grows hconsistent
    rw [hpre, Schedule.newStates_range, Nat.zero_add] at htotal
    exact htotal

/-- Two branches, one of which ends in branches again, and a yield after them. -/
def branches : Draft where
  name := "branches"
  registers := .empty
  vars := .empty
  inputs := []
  outputs := [⟨"dout", .bool⟩]
  stmts := .ofList [Draft.emit [some (.flag "a")], Draft.emit [some (.flag "b")], Draft.conditional (.flag "f") [0, 1],
    Draft.emit [some (.flag "c")], Draft.emit [some (.flag "d")], Draft.emit [some (.flag "e")],
    Draft.conditional (.flag "h") [4, 5], Draft.container [6], Draft.conditional (.flag "g") [3, 7],
    Draft.container [2, 8], Draft.emit [some (.flag "z")]]

theorem branches_intervals : branches.finish [9, 10] = .ok (branches.enclose [9, 10]) ∧
    ∃ s st, (branches.enclose [9, 10]).schedule = .ok s ∧ (branches.enclose [9, 10]).stage s = .ok st ∧
      st.maxState = 4 ∧ st.schedule.Intervals st.maxState := by
  have hm : branches.finish [9, 10] = .ok (branches.enclose [9, 10]) := rfl
  have hfacts : ((branches.enclose [9, 10]).schedule >>= (branches.enclose [9, 10]).stage).toOption.any
      (fun st => st.maxState == 4) = true := by
    decide +kernel
  obtain ⟨st, hst, hmax⟩ := Checked.exists_of_any hfacts
  obtain ⟨s, hs, hst⟩ := Checked.bind_eq_ok.1 hst
  obtain ⟨st', hst', hintervals⟩ := Module.stage_intervals hm hs
  cases hst.symm.trans hst'
  exact ⟨hm, s, st, hs, hst, beq_iff_eq.1 hmax, hintervals⟩

end Sequencer
