import Sequencer.Proofs.Lowering.Leaving

set_option autoImplicit false

/-!
# Entering a segment

The statements before a segment run in every cycle in the first state of the segment in which it is reached. A loop goes
back to its first state, so that they run again in every iteration: registers that they update are enabled again, and all
others are as if nothing stood before the loop.
-/

namespace Sequencer

open Control

/-- What is left of the segment at `i` if nothing stands before the one at `l`. -/
def Segment.clip (l i : Nat) (seg : Segment) : Segment := { seg with prolog := if i = l then [] else seg.prolog }

/-- The schedule with nothing before the segment at `l`. -/
def Schedule.dropProlog (s : Schedule) (l : Nat) : Schedule :=
  { s with segments := ⟨s.segments.items.modify l fun seg => { seg with prolog := [] }⟩ }

theorem Segment.clip_of_nil {seg : Segment} (h : seg.prolog = []) (l i : Nat) : seg.clip l i = seg := by
  rw [clip, h, ite_self, ← h]

theorem Segment.clip_of_ne {l i : Nat} (h : i ≠ l) (seg : Segment) : seg.clip l i = seg := by
  rw [clip, if_neg h]

namespace Schedule

variable {s : Schedule} {l i : Nat} {seg : Segment}

theorem size_dropProlog (s : Schedule) (l : Nat) : (s.dropProlog l).segments.size = s.segments.size := Array.size_modify

theorem get?_dropProlog (s : Schedule) (l i : Nat) :
    (s.dropProlog l).segments.get? i = (s.segments.get? i).map (Segment.clip l i) := by
  change (s.segments.items.modify l fun seg => { seg with prolog := [] })[i]? = s.segments.items[i]?.map (Segment.clip l i)
  rw [Array.getElem?_modify]
  split
  · rename_i hli
    rw [hli]
    refine congrArg (fun f => Option.map f _) (funext fun seg => ?_)
    rw [Segment.clip, if_pos rfl]
  · rename_i hli
    have hid : Segment.clip l i = id := funext fun seg => seg.clip_of_ne fun h => hli h.symm
    rw [hid, Option.map_id]
    rfl

theorem segment_dropProlog_eq (s : Schedule) (l i : Nat) :
    (s.dropProlog l).segment i = (s.segment i).map (Segment.clip l i) := by
  have hget := get?_dropProlog s l i
  have hsize := size_dropProlog s l
  unfold Arena.get? at hget
  unfold segment Arena.get
  rw [hget, hsize]
  cases s.segments.items[i]? <;> rfl

theorem segment_dropProlog (hseg : s.segment i = .ok seg) : (s.dropProlog l).segment i = .ok (seg.clip l i) := by
  rw [segment_dropProlog_eq, hseg]
  rfl

theorem exists_of_segment_dropProlog (hseg : (s.dropProlog l).segment i = .ok seg) :
    ∃ seg', s.segment i = .ok seg' ∧ seg = seg'.clip l i := by
  rw [segment, Arena.get_eq_ok_iff, get?_dropProlog] at hseg
  obtain ⟨seg', hseg', rfl⟩ := Option.map_eq_some_iff.1 hseg
  exact ⟨seg', (Arena.get_eq_ok_iff _ _ _).2 hseg', rfl⟩

theorem outline_dropProlog (s : Schedule) (l i : Nat) : (s.dropProlog l).outline i = s.outline i := by
  refine Arena.outline_congr (size_dropProlog s l) ?_ i
  intro j
  unfold Arena.linksAt
  rw [get?_dropProlog]
  cases s.segments.get? j <;> rfl

theorem prolog_clip (l i : Nat) (seg : Segment) : (seg.clip l i).prolog.Sublist seg.prolog := by
  rw [Segment.clip]
  dsimp only
  split
  · exact List.nil_sublist _
  · exact .refl _

theorem spelled_clip (l i : Nat) (seg : Segment) : (seg.clip l i).spelled.Sublist seg.spelled := by
  have hkind : (seg.clip l i).kind = seg.kind := rfl
  unfold Segment.spelled
  rw [hkind]
  split
  · exact ((prolog_clip l i seg).append (.refl _)).append (.refl _)
  · exact ((prolog_clip l i seg).append (.refl _)).append (.refl _)

variable {m : Module} {maxState : Nat}

theorem StatesFit.congr {segs : List Segment} (h : StatesFit maxState seg segs) (seg' : Segment)
    (hkind : seg'.kind = seg.kind) (hstates : seg'.states = seg.states) {segs' : List Segment}
    (hsegs : List.Forall₂ (fun c' c : Segment => c'.states = c.states) segs' segs) : StatesFit maxState seg' segs' := by
  have hfirst : seg'.firstState? = seg.firstState? := congrArg List.head? hstates
  have hmem : ∀ c' ∈ segs', ∃ c ∈ segs, c'.states = c.states := fun c' hc' => exists_of_mem_forall₂ hsegs.flip hc'
  refine ⟨hstates ▸ h.ne_nil, hstates ▸ h.nodup, hstates ▸ h.le_max, ?_, ?_, ?_, ?_, ?_, ?_⟩
  · rintro rfl
    cases hsegs
    rw [hstates]
    exact h.single rfl
  · intro c' hc' x hx
    obtain ⟨c, hc, hcc⟩ := hmem c' hc'
    rw [hstates]
    exact h.sub c hc x (hcc ▸ hx)
  · intro hne x hx
    rw [hstates] at hx
    obtain ⟨c, hc, hxc⟩ := h.cover (by rintro rfl; cases hsegs; exact hne rfl) x hx
    obtain ⟨c', hc', hcc⟩ := exists_of_mem_forall₂ hsegs hc
    exact ⟨c', hc', hcc ▸ hxc⟩
  · intro hseq
    refine pairwise_of_forall₂ hsegs (h.disjoint (hkind ▸ hseq)) ?_
    intro c' d' c d _ _ _ _ hc hd hdisjoint
    rw [hc, hd]
    exact hdisjoint
  · intro hmutex c' hc'
    obtain ⟨c, hc, hcc⟩ := hmem c' hc'
    rw [hfirst, ← h.first_eq (hkind ▸ hmutex) c hc]
    exact congrArg List.head? hcc
  · intro c' hc'
    cases hsegs with
    | nil => cases hc'
    | cons hcc _ =>
      cases hc'
      rw [hfirst, ← h.head_eq _ rfl]
      exact congrArg List.head? hcc

/-- The segments that stand at the outlines with nothing before the one at `l`. -/
theorem segments_dropProlog {os : List Outline} {segs : List Segment}
    (h : List.Forall₂ (fun o c => s.segment o.index = .ok c) os segs) :
    ∃ segs', List.Forall₂ (fun o c => (s.dropProlog l).segment o.index = .ok c) os segs' ∧
      List.Forall₂ (fun c' c : Segment => ∃ i, c' = c.clip l i) segs' segs := by
  induction h with
  | nil => exact ⟨[], .nil, .nil⟩
  | @cons o c os segs hc _ ih =>
    obtain ⟨segs', hsegs', hclip⟩ := ih
    exact ⟨c.clip l o.index :: segs', .cons (segment_dropProlog hc) hsegs', .cons ⟨_, rfl⟩ hclip⟩

theorem Consistent.dropProlog {o : Outline} (h : Consistent m s maxState o) : Consistent m (s.dropProlog l) maxState o := by
  induction h with
  | @leaf i seg h =>
    have hseg := segment_dropProlog (l := l) h.segment
    rw [Segment.clip_of_nil h.prolog] at hseg
    exact .leaf { h with segment := hseg }
  | @block i n b seg os segs h hos ih =>
    obtain ⟨segs', hsegs', hclip⟩ := segments_dropProlog (l := l) h.segments
    have hmem : ∀ c' ∈ segs', ∃ c ∈ segs, ∃ i, c' = c.clip l i := fun c' hc' => exists_of_mem_forall₂ hclip.flip hc'
    have hfits : BlockFits m (s.dropProlog l) maxState i os n b (seg.clip l i) segs' := by
      refine ⟨segment_dropProlog h.segment, h.block, h.stmt, h.children,
        fun j hj => h.prolog j ((prolog_clip l i seg).subset hj), h.epilog, hsegs', ?_, ?_, ?_,
        fun j hj => h.inside j ((spelled_clip l i seg).subset hj), h.module, ?_⟩
      · intro c' hc'
        obtain ⟨c, hc, i', rfl⟩ := hmem c' hc'
        exact h.parents c hc
      · rw [hclip.length_eq]
        refine h.kind.imp_right (And.imp_right (Or.imp_left (And.imp_right ?_)))
        intro hleaf c' hc'
        obtain ⟨c, hc, i', rfl⟩ := hmem c' hc'
        exact hleaf c hc
      · refine (flatMap_sublist_of_forall₂ hclip ?_).trans h.spelled
        rintro c' _ c ⟨i', rfl⟩
        exact spelled_clip l i' c
      · exact h.states.congr (seg.clip l i) rfl rfl (hclip.imp fun _ _ ⟨_, hc⟩ => hc ▸ rfl)
    exact .block hfits ih

end Schedule

namespace ConditionTable

variable {m : Module} {s : Schedule} {sp : StateSpace} {l : Nat}

theorem seqTiming_dropProlog (d : Draft) (i : Nat) (seg : Segment) :
    seqTiming ⟨m, s.dropProlog l, sp⟩ d (seg.clip l i) = seqTiming ⟨m, s, sp⟩ d seg := by
  have hguarded : ∀ (c : Nat) (part : Timing → Cond),
      ((s.dropProlog l).segment c >>= fun child => sp.narrow child.states seg.states >>= fun test =>
        d.refs.get c >>= fun t => Cond.and test (part t)) =
      (s.segment c >>= fun child => sp.narrow child.states seg.states >>= fun test =>
        d.refs.get c >>= fun t => Cond.and test (part t)) := by
    intro c part
    rw [Schedule.segment_dropProlog_eq]
    cases s.segment c <;> rfl
  have hchildren : (seg.clip l i).children = seg.children := rfl
  have hstates : (seg.clip l i).states = seg.states := rfl
  unfold seqTiming
  dsimp only
  rw [hchildren, hstates]
  cases seg.children.getLast? with
  | none => rfl
  | some last =>
    dsimp only
    simp only [hguarded]

theorem defineSegment_dropProlog (d : Draft) (i : Nat) (seg : Segment) :
    defineSegment ⟨m, s.dropProlog l, sp⟩ d i (seg.clip l i) = defineSegment ⟨m, s, sp⟩ d i seg := by
  unfold defineSegment
  rw [seqTiming_dropProlog]
  rfl

mutual
theorem buildAt_dropProlog : (o : Outline) → ∀ d, buildAt ⟨m, s.dropProlog l, sp⟩ d o = buildAt ⟨m, s, sp⟩ d o
  | .node i os, d => by
    rw [buildAt, buildAt]
    dsimp only
    rw [Schedule.segment_dropProlog_eq, buildAll_dropProlog os d]
    cases s.segment i with
    | error e => rfl
    | ok seg => exact bind_congr fun d' => defineSegment_dropProlog d' i seg
theorem buildAll_dropProlog : (os : List Outline) → ∀ d, buildAll ⟨m, s.dropProlog l, sp⟩ d os = buildAll ⟨m, s, sp⟩ d os
  | [], _ => rfl
  | o :: os, d => by
    rw [buildAll, buildAll, buildAt_dropProlog o d]
    exact bind_congr fun d' => buildAll_dropProlog os d'
end

theorem Defines.dropProlog {t : ConditionTable} (h : t.Defines m s) : t.Defines m (s.dropProlog l) := by
  intro i seg hseg hkind
  obtain ⟨seg', hseg', rfl⟩ := Schedule.exists_of_segment_dropProlog hseg
  obtain ⟨d, n, b, id, inner, u, hrefs, hdefined, hcycle, hexit⟩ := h i seg' hseg' hkind
  refine ⟨d, n, b, id, inner, u, hrefs, { hdefined with segment := hseg, body := ?_ }, hcycle, hexit⟩
  have hbody := hdefined.body
  rw [bodyTiming] at hbody ⊢
  rw [seqTiming_dropProlog]
  exact hbody

theorem Pairs.dropProlog {t : ConditionTable} (h : t.Pairs s) : t.Pairs (s.dropProlog l) := by
  intro i seg hseg hkind
  obtain ⟨seg', hseg', rfl⟩ := Schedule.exists_of_segment_dropProlog hseg
  exact h i seg' hseg' hkind

end ConditionTable

namespace Lowering

open Lower Comb

/-- The module with nothing before the segment at `l`. -/
def Context.dropProlog (ctx : Context) (l : Nat) : Context := { ctx with schedule := ctx.schedule.dropProlog l }

variable {ctx : Context} {V : Type} {I : Interpretation V} {ρ : Valuation V} {k l : Nat}

theorem Scheduled.dropProlog (h : Scheduled ctx) : Scheduled (ctx.dropProlog l) where
  wellFormed := h.wellFormed
  consistent := by
    change Schedule.Consistent _ (ctx.schedule.dropProlog l) _ ((ctx.schedule.dropProlog l).outline ctx.schedule.root)
    rw [Schedule.outline_dropProlog]
    exact h.consistent.dropProlog
  preorder := by
    change ((ctx.schedule.dropProlog l).outline ctx.schedule.root).preorder =
      List.range (ctx.schedule.dropProlog l).segments.size
    rw [Schedule.outline_dropProlog, Schedule.size_dropProlog]
    exact h.preorder
  defines := h.defines.dropProlog
  root := by
    obtain ⟨seg, hroot⟩ := h.root
    have hseg := Schedule.segment_dropProlog (l := l) hroot.segment
    rw [Segment.clip_of_nil (h.root_bare hroot.segment).1] at hseg
    exact ⟨seg, { hroot with segment := hseg }⟩

theorem Running.dropProlog (h : Running I ρ ctx k) : Running I ρ (ctx.dropProlog l) k :=
  ⟨h.toScheduled.dropProlog, h.satisfied, h.state, h.exclusive⟩

end Lowering

end Sequencer
