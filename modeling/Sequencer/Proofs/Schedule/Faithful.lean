import Sequencer.Proofs.Schedule.Layout

set_option autoImplicit false

/-!
# Schedules keep the statements of their module

A schedule is a tree of segments, numbered from the top down. The segments below the segment of a block spell out the
statements of the block, so that none is lost, taken twice or moved. A leaf at which the module does not suspend is the
only segment below its block.
-/

namespace Sequencer

open Control

namespace Plan

/-- A leaf without a statement that blocks. -/
def Idle (m : Module) : Plan → Prop
  | part k _ _ ss _ _ => k = .leaf ∧ ∀ j ∈ ss, m.Free j

/-- Below every part, a leaf without a statement that blocks stands alone. -/
inductive Lone (m : Module) : Plan → Prop
  | part {k : SegmentKind} {b : Option Nat} {p ss e : List Nat} {cs : List Plan}
    (hlone : ∀ c ∈ cs, c.Idle m → cs = [c]) (hcs : ∀ c ∈ cs, Lone m c) : Lone m (.part k b p ss e cs)

/-- A part to which free statements may be added: it suspends, and so do the leaves below it unless they stand alone. -/
structure Busy (m : Module) (p : Plan) : Prop where
  lone : p.Lone m
  not_idle : ¬ p.Idle m

namespace Busy

variable {m : Module} {p : Plan}

theorem prepend (h : p.Busy m) (js : List Nat) : (p.prepend js).Busy m := by
  obtain ⟨k, b, q, ss, e, cs⟩ := p
  obtain ⟨⟨hlone, hcs⟩, hidle⟩ := h
  cases k with
  | leaf =>
    refine ⟨.part hlone hcs, ?_⟩
    rintro ⟨_, hfree⟩
    exact hidle ⟨rfl, fun j hj => hfree j (List.mem_append_right _ hj)⟩
  | seq | mutex => exact ⟨.part hlone hcs, fun hleaf => nomatch hleaf.1⟩

theorem append (h : p.Busy m) (j : Nat) : (p.append j).Busy m := by
  obtain ⟨k, b, q, ss, e, cs⟩ := p
  obtain ⟨⟨hlone, hcs⟩, hidle⟩ := h
  cases k with
  | leaf =>
    refine ⟨.part hlone hcs, ?_⟩
    rintro ⟨_, hfree⟩
    exact hidle ⟨rfl, fun x hx => hfree x (List.mem_append_left _ hx)⟩
  | seq | mutex => exact ⟨.part hlone hcs, fun hleaf => nomatch hleaf.1⟩

theorem appendEpilog (h : p.Busy m) (js : List Nat) : (p.appendEpilog js).Busy m := by
  obtain ⟨k, b, q, ss, e, cs⟩ := p
  obtain ⟨⟨hlone, hcs⟩, hidle⟩ := h
  exact ⟨.part hlone hcs, hidle⟩

end Busy

theorem busy_of_yield {m : Module} {j : Nat} {y : Yield} (h : m.stmt j = .ok (.yield y)) : (leaf [j]).Busy m := by
  refine ⟨.part (by simp) (by simp), ?_⟩
  rintro ⟨_, hfree⟩
  have hj : m.isBlocking j = .ok false := hfree j (List.mem_singleton_self j)
  have hindex := m.index_outline j
  rw [Module.isBlocking] at hj
  generalize m.outline j = o at hj hindex
  obtain ⟨i, os⟩ := o
  obtain rfl : i = j := hindex
  rw [Module.blocking, h, Checked.ok_bind] at hj
  cases hj

end Plan

namespace Module

namespace Parts

theorem busy_push {m : Module} {ps : Parts} (h : ∀ p ∈ ps.done, p.Busy m) {p : Plan} (hp : p.Busy m) :
    ∀ q ∈ (ps.push p).done, q.Busy m := by
  intro q hq
  rcases List.mem_append.1 hq with hq | hq
  · exact h q hq
  · exact List.mem_singleton.1 hq ▸ hp.prepend ps.free

theorem busy_modifyLast {m : Module} {ps : Parts} (h : ∀ p ∈ ps.done, p.Busy m) {f : Plan → Plan}
    (hf : ∀ p : Plan, p.Busy m → (f p).Busy m) : ∀ q ∈ (ps.modifyLast f).done, q.Busy m := by
  obtain ⟨done, free⟩ := ps
  rcases List.eq_nil_or_concat done with rfl | ⟨init, p, rfl⟩
  · exact fun q hq => absurd hq List.not_mem_nil
  · rw [List.concat_eq_append, modifyLast_concat]
    intro q hq
    rcases List.mem_append.1 hq with hq | hq
    · exact h q (by simp [hq])
    · rw [List.mem_singleton.1 hq]
      exact hf p (h p (by simp))

/-- Free statements wait only as long as there is no part that they could join. -/
def Waiting (ps : Parts) : Prop := ps.free ≠ [] → ps.done = []

theorem waiting_addFree {ps : Parts} (h : ps.Waiting) (j : Nat) : (ps.addFree j).Waiting := by
  obtain ⟨done, free⟩ := ps
  intro hfree
  unfold addFree at hfree ⊢
  split
  · rename_i hdone
    exact List.isEmpty_iff.1 hdone
  · rename_i hdone
    rw [if_neg hdone] at hfree
    exact absurd (List.isEmpty_iff.2 (h hfree)) hdone

end Parts

mutual
theorem planBlock_busy (m : Module) : (o : Outline) → ∀ p, m.planBlock o = .ok p → p.Busy m
  | .node i os, p, h => by
    obtain ⟨b, k, cs, _, hk, rfl, hcs⟩ := planBlock_eq_ok h
    have hkind : k ≠ .leaf := by
      rcases segmentKind_eq_ok hk with ⟨rfl, _⟩ | ⟨rfl, _⟩
      · exact nofun
      · exact nofun
    refine ⟨?_, fun hleaf => hkind hleaf.1⟩
    split at hcs
    · have hbusy := planBranches_busy m i os _ cs (by simp) hcs
      exact .part (fun c hc hidle => absurd hidle (hbusy c hc).not_idle) fun c hc => (hbusy c hc).lone
    · obtain ⟨hlone, hidle⟩ := planStmts_lone m os _ cs (by simp) (fun _ => rfl) hcs
      exact .part hidle hlone
theorem planStmts_lone (m : Module) : (os : List Outline) → ∀ ps cs, (∀ p ∈ ps.done, p.Busy m) → ps.Waiting →
    m.planStmts ps os = .ok cs → (∀ c ∈ cs, c.Lone m) ∧ ∀ c ∈ cs, c.Idle m → cs = [c]
  | [], ps, cs, hps, hwait, h => by
    cases h
    unfold Parts.finish
    split
    · exact ⟨fun c hc => (hps c hc).lone, fun c hc hidle => absurd hidle (hps c hc).not_idle⟩
    · rename_i hfree
      rw [hwait (by simpa using hfree), List.nil_append]
      constructor
      · intro c hc
        rw [List.mem_singleton.1 hc]
        exact .part (by simp) (by simp)
      · intro c hc _
        rw [List.mem_singleton.1 hc]
  | o :: os, ps, cs, hps, hwait, h => by
    rw [planStmts, Checked.bind_eq_ok] at h
    obtain ⟨blocks, hblocks, h⟩ := h
    cases blocks with
    | true =>
      obtain ⟨s, hs, hcases⟩ := blocking_stmt hblocks
      rw [if_pos rfl, hs, Checked.ok_bind] at h
      rcases hcases with ⟨b, rfl⟩ | ⟨y, rfl⟩
      · obtain ⟨p, hp, h⟩ := Checked.bind_eq_ok.1 h
        exact planStmts_lone m os _ cs (Parts.busy_push hps (planBlock_busy m o p hp)) (by simp [Parts.push, Parts.Waiting]) h
      · exact planStmts_lone m os _ cs (Parts.busy_push hps (Plan.busy_of_yield hs)) (by simp [Parts.push, Parts.Waiting]) h
    | false =>
      rw [if_neg (by simp), Checked.bind_eq_ok] at h
      obtain ⟨_, _, h⟩ := h
      refine planStmts_lone m os _ cs ?_ (Parts.waiting_addFree hwait o.index) h
      unfold Parts.addFree
      split
      · exact hps
      · exact Parts.busy_modifyLast hps fun p hp => hp.append o.index
theorem planBranches_busy (m : Module) (i : Nat) : (os : List Outline) → ∀ ps cs, (∀ p ∈ ps.done, p.Busy m) →
    m.planBranches i ps os = .ok cs → ∀ c ∈ cs, c.Busy m
  | [], ps, cs, hps, h => by
    rw [planBranches] at h
    split at h
    · cases h
      exact hps
    · split at h
      · obtain ⟨_, _, h⟩ := Checked.bind_eq_ok.1 h
        exact absurd h (Checked.reject_ne_ok _ _)
      · cases h
        exact Parts.busy_modifyLast hps fun p hp => hp.appendEpilog ps.free
  | o :: os, ps, cs, hps, h => by
    rw [planBranches, Checked.bind_eq_ok] at h
    obtain ⟨blocks, hblocks, h⟩ := h
    cases blocks with
    | true =>
      obtain ⟨p, hp, h⟩ := Checked.bind_eq_ok.1 h
      exact planBranches_busy m i os _ cs (Parts.busy_push hps (planBlock_busy m o p hp)) h
    | false =>
      obtain ⟨_, _, h⟩ := Checked.bind_eq_ok.1 h
      exact planBranches_busy m i os ⟨ps.done, ps.free ++ [o.index]⟩ cs hps h
end

end Module

namespace Schedule

/-- A leaf without a statement that blocks is the only segment below the segment at `i`. -/
def LoneAt (m : Module) (s : Schedule) (i : Nat) : Prop :=
  ∀ seg c child, s.segment i = .ok seg → c ∈ seg.children → s.segment c = .ok child → child.kind = .leaf →
    (∀ j ∈ child.stmts, m.Free j) → seg.children = [c]

end Schedule

namespace Plan

mutual
/-- The segments from `start` on are the parts of the plan. -/
def At (s : Schedule) (start : Nat) : Plan → Prop
  | part k _ _ ss _ cs => (∃ seg, s.segment start = .ok seg ∧ seg.kind = k ∧ seg.stmts = ss ∧
      seg.children = starts (start + 1) cs) ∧ AllAt s (start + 1) cs
def AllAt (s : Schedule) (start : Nat) : List Plan → Prop
  | [] => True
  | p :: ps => p.At s start ∧ AllAt s (start + p.size) ps
end

mutual
theorem at_segmentsFrom : (p : Plan) → ∀ (parent : Option Nat) (pre post : List Segment) (root : Nat),
    p.At ⟨.ofList (pre ++ p.segmentsFrom parent pre.length ++ post), root⟩ pre.length
  | part k b q ss e cs, parent, pre, post, root => by
    obtain ⟨top, htop⟩ : ∃ top, top = Segment.mk k b parent (starts (pre.length + 1) cs) [] ss q e := ⟨_, rfl⟩
    have hlist : pre ++ (part k b q ss e cs).segmentsFrom parent pre.length ++ post =
        (pre ++ [top]) ++ segmentsAllFrom (some pre.length) (pre ++ [top]).length cs ++ post := by
      rw [segmentsFrom, htop]
      simp
    have hall := allAt_segmentsAllFrom cs (some pre.length) (pre ++ [top]) post root
    rw [← hlist, List.length_append, List.length_singleton] at hall
    refine ⟨⟨top, ?_, by rw [htop], by rw [htop], by rw [htop]⟩, hall⟩
    rw [hlist, List.append_assoc, List.append_assoc, List.singleton_append]
    exact segment_at
theorem allAt_segmentsAllFrom : (ps : List Plan) → ∀ (parent : Option Nat) (pre post : List Segment) (root : Nat),
    AllAt ⟨.ofList (pre ++ segmentsAllFrom parent pre.length ps ++ post), root⟩ pre.length ps
  | [], parent, pre, post, root => trivial
  | p :: ps, parent, pre, post, root => by
    have hlen : (pre ++ p.segmentsFrom parent pre.length).length = pre.length + p.size := by
      rw [List.length_append, length_segmentsFrom]
    have hhead := at_segmentsFrom p parent pre (segmentsAllFrom parent (pre.length + p.size) ps ++ post) root
    have htail := allAt_segmentsAllFrom ps parent (pre ++ p.segmentsFrom parent pre.length) post root
    rw [hlen] at htail
    have hlist : pre ++ segmentsAllFrom parent pre.length (p :: ps) ++ post =
        pre ++ p.segmentsFrom parent pre.length ++ (segmentsAllFrom parent (pre.length + p.size) ps ++ post) := by
      rw [segmentsAllFrom]
      simp
    rw [hlist]
    rw [List.append_assoc (pre ++ _)] at htail
    exact ⟨hhead, htail⟩
end

theorem exists_at_of_mem_starts {s : Schedule} {start c : Nat} {ps : List Plan} (h : AllAt s start ps)
    (hc : c ∈ starts start ps) : ∃ p ∈ ps, p.At s c := by
  induction ps generalizing start with
  | nil => exact absurd hc List.not_mem_nil
  | cons p ps ih =>
    obtain ⟨hhead, htail⟩ := h
    rcases List.mem_cons.1 hc with rfl | hc
    · exact ⟨p, List.mem_cons_self, hhead⟩
    · obtain ⟨q, hq, hat⟩ := ih htail hc
      exact ⟨q, List.mem_cons_of_mem _ hq, hat⟩

theorem At.idle {m : Module} {s : Schedule} {c : Nat} {p : Plan} (h : p.At s c) {child : Segment}
    (hchild : s.segment c = .ok child) (hkind : child.kind = .leaf) (hfree : ∀ j ∈ child.stmts, m.Free j) :
    p.Idle m := by
  obtain ⟨k, b, q, ss, e, cs⟩ := p
  obtain ⟨⟨seg, hseg, rfl, rfl, _⟩, _⟩ := h
  cases hchild.symm.trans hseg
  exact ⟨hkind, hfree⟩

mutual
theorem loneAt_of_at {m : Module} {s : Schedule} : (p : Plan) → ∀ {start : Nat}, p.Lone m → p.At s start →
    ∀ i ∈ List.range' start p.size, s.LoneAt m i
  | part k b q ss e cs, start, hlone, hat, i, hi => by
    obtain ⟨halone, hcs⟩ := hlone
    obtain ⟨⟨seg, hseg, _, _, hchildren⟩, hall⟩ := hat
    rw [size, Nat.add_comm, List.range'_succ] at hi
    rcases List.mem_cons.1 hi with rfl | hi
    · intro seg' c child hseg' hc hchild hkind hfree
      cases hseg.symm.trans hseg'
      rw [hchildren] at hc
      obtain ⟨p, hp, hpat⟩ := exists_at_of_mem_starts hall hc
      have hcs : cs = [p] := halone p hp (hpat.idle hchild hkind hfree)
      subst hcs
      obtain rfl : c = i + 1 := List.mem_singleton.1 hc
      exact hchildren
    · exact loneAt_of_allAt cs hcs hall i hi
theorem loneAt_of_allAt {m : Module} {s : Schedule} : (ps : List Plan) → ∀ {start : Nat}, (∀ p ∈ ps, p.Lone m) →
    AllAt s start ps → ∀ i ∈ List.range' start (sizes ps), s.LoneAt m i
  | [], start, _, _, i, hi => absurd hi List.not_mem_nil
  | p :: ps, start, hlone, hall, i, hi => by
    rw [sizes, ← List.range'_append_1, List.mem_append] at hi
    rcases hi with hi | hi
    · exact loneAt_of_at p (hlone p List.mem_cons_self) hall.1 i hi
    · exact loneAt_of_allAt ps (fun q hq => hlone q (List.mem_cons_of_mem _ hq)) hall.2 i hi
end

end Plan

namespace Module

theorem schedule_lone {m : Module} {s : Schedule} (h : m.schedule = .ok s) : ∀ i, s.LoneAt m i := by
  obtain ⟨p, hp, h⟩ := Checked.bind_eq_ok.1 h
  cases h
  intro i seg c child hseg
  have hat := p.at_segmentsFrom none [] [] 0
  rw [List.nil_append, List.append_nil] at hat
  refine p.loneAt_of_at (planBlock_busy m _ p hp).lone hat i ?_ seg c child hseg
  have hlt := Schedule.lt_size_of_segment hseg
  have hsize : p.flatten.segments.size = p.size := by
    change (p.segmentsFrom none 0).toArray.size = p.size
    rw [List.size_toArray, Plan.length_segmentsFrom]
  rw [List.length_nil, ← List.range_eq_range', List.mem_range]
  omega

end Module

namespace Schedule

/-- A schedule with the statements of the module in their order. -/
structure Faithful (m : Module) (s : Schedule) : Prop where
  root : ∃ seg, s.segment s.root = .ok seg ∧ seg.parent = none ∧ seg.block = some m.root
  parent : ∀ i seg, s.segment i = .ok seg → i ≠ s.root → ∃ p above, seg.parent = some p ∧ s.segment p = .ok above ∧
    i ∈ above.children
  children : ∀ i seg, s.segment i = .ok seg → seg.children.Nodup ∧
    ∀ c ∈ seg.children, ∃ child, s.segment c = .ok child ∧ child.parent = some i
  preorder : s.preorder = .ok (List.range s.segments.size)
  block : ∀ i seg, s.segment i = .ok seg → seg.kind ≠ .leaf → ∃ n b segs, seg.block = some n ∧
    m.stmt n = .ok (.block b) ∧ seg.children.mapM s.segment = .ok segs ∧ b.stmts = segs.flatMap Segment.spelled
  leaf : ∀ i seg, s.segment i = .ok seg → seg.kind = .leaf → seg.block = none ∧ seg.children = []
  free : ∀ i seg, s.segment i = .ok seg → ∀ j ∈ seg.prolog ++ seg.epilog, m.Free j
  yield : ∀ i seg, s.segment i = .ok seg → seg.kind = .leaf →
    (seg.stmts.filter (Checked.passes m.isBlocking)).length ≤ 1 ∧
      ∀ j ∈ seg.stmts, m.Free j ∨ ∃ y, m.stmt j = .ok (.yield y)
  lone : ∀ i, s.LoneAt m i

variable {m : Module} {s : Schedule}

theorem Laid.part {parent : Option Nat} {o o' : Outline} (h : Laid m s parent o) (hpart : o'.Part o) :
    o' = o ∧ Laid m s parent o' ∨ ∃ i os, Outline.Part (.node i os) o ∧ o' ∈ os ∧ Laid m s (some i) o' := by
  induction hpart generalizing parent with
  | refl => exact .inl ⟨rfl, h⟩
  | @nested o _ i os ho _ ih =>
    rcases ih (h.nested o ho) with ⟨rfl, hlaid⟩ | ⟨j, os', hpart, hmem, hlaid⟩
    · exact .inr ⟨i, os, .refl _, ho, hlaid⟩
    · exact .inr ⟨j, os', .nested ho hpart, hmem, hlaid⟩

theorem Laid.exists_segment {parent : Option Nat} {i : Nat} {os : List Outline} (h : Laid m s parent (.node i os)) :
    ∃ seg, s.segment i = .ok seg ∧ seg.parent = parent ∧ seg.children = os.map Outline.index := by
  cases h with
  | leaf hseg hparent _ _ hchildren => exact ⟨_, hseg, hparent, hchildren⟩
  | block hseg hparent _ _ hchildren => exact ⟨_, hseg, hparent, hchildren⟩

section Tree

variable {i : Nat} {seg : Segment} (hlaid : Laid m s none (s.outline s.root))
  (hpre : (s.outline s.root).preorder = List.range s.segments.size)

include hlaid hpre

/-- A segment is laid out at the root or below another one. -/
theorem exists_laid (hseg : s.segment i = .ok seg) :
    ∃ os parent, Outline.Part (.node i os) (s.outline s.root) ∧ Laid m s parent (.node i os) ∧
      (i ≠ s.root → ∃ p os', parent = some p ∧ Outline.Part (.node p os') (s.outline s.root) ∧ .node i os ∈ os') := by
  have hi := mem_preorder_of_segment hpre hseg
  obtain ⟨⟨j, os⟩, hpart, rfl⟩ := Outline.exists_part_of_mem hi
  rcases hlaid.part hpart with ⟨heq, hl⟩ | ⟨p, os', hpart', hmem, hl⟩
  · refine ⟨os, none, hpart, hl, fun hne => absurd ?_ hne⟩
    have hindex := s.index_outline s.root
    rw [← heq] at hindex
    exact hindex
  · exact ⟨os, some p, hpart, hl, fun _ => ⟨p, os', rfl, hpart', hmem⟩⟩

theorem parent_lists (hseg : s.segment i = .ok seg) (hne : i ≠ s.root) :
    ∃ p above, seg.parent = some p ∧ s.segment p = .ok above ∧ i ∈ above.children := by
  obtain ⟨os, parent, _, hl, habove⟩ := exists_laid hlaid hpre hseg
  obtain ⟨p, os', rfl, hpart, hmem⟩ := habove hne
  obtain ⟨seg', hseg', hparent, _⟩ := hl.exists_segment
  cases hseg.symm.trans hseg'
  have hp : ∃ parent, Laid m s parent (.node p os') := by
    rcases hlaid.part hpart with ⟨_, hlp⟩ | ⟨_, _, _, _, hlp⟩
    · exact ⟨none, hlp⟩
    · exact ⟨_, hlp⟩
  obtain ⟨parent', hlp⟩ := hp
  obtain ⟨above, habove, _, hchildren⟩ := hlp.exists_segment
  refine ⟨p, above, hparent, habove, ?_⟩
  rw [hchildren]
  exact List.mem_map_of_mem hmem

theorem children_link_back (hseg : s.segment i = .ok seg) :
    seg.children.Nodup ∧ ∀ c ∈ seg.children, ∃ child, s.segment c = .ok child ∧ child.parent = some i := by
  obtain ⟨os, parent, hpart, hl, _⟩ := exists_laid hlaid hpre hseg
  obtain ⟨seg', hseg', _, hchildren⟩ := hl.exists_segment
  cases hseg.symm.trans hseg'
  rw [hchildren]
  constructor
  · have hnodup : (Outline.node i os).preorder.Nodup := (hpre ▸ List.nodup_range).sublist hpart.sublist
    rw [Outline.preorder_eq, List.nodup_cons] at hnodup
    exact hnodup.2.sublist (Outline.map_index_sublist os)
  · intro c hc
    obtain ⟨⟨c', os'⟩, ho, rfl⟩ := List.mem_map.1 hc
    obtain ⟨child, hchild, hparent, _⟩ := (hl.nested _ ho).exists_segment
    exact ⟨child, hchild, hparent⟩

omit hlaid in
theorem preorder_eq_range : s.preorder = .ok (List.range s.segments.size) := by
  rw [preorder, Arena.reachable]
  change (s.outline s.root).preorder.mapM _ = _
  rw [hpre]
  have hall : ∀ js : List Nat, (∀ j ∈ js, j < s.segments.size) →
      js.mapM (fun j => (s.segments.get j).map fun _ => j) = .ok js := by
    intro js
    induction js with
    | nil => exact fun _ => rfl
    | cons j js ih =>
      intro hjs
      obtain ⟨hj, hjs⟩ := List.forall_mem_cons.1 hjs
      obtain ⟨x, hx⟩ := Arena.exists_get?_of_lt hj
      rw [List.mapM_cons, (Arena.get_eq_ok_iff _ _ _).2 hx, ih hjs]
      rfl
  exact hall _ fun j hj => List.mem_range.1 hj

theorem children_spell_block (hseg : s.segment i = .ok seg) (hkind : seg.kind ≠ .leaf) :
    ∃ n b segs, seg.block = some n ∧ m.stmt n = .ok (.block b) ∧ seg.children.mapM s.segment = .ok segs ∧
      b.stmts = segs.flatMap Segment.spelled := by
  obtain ⟨os, parent, _, hl, _⟩ := exists_laid hlaid hpre hseg
  cases hl with
  | leaf hseg' _ hleaf =>
    cases hseg.symm.trans hseg'
    exact absurd hleaf hkind
  | @block _ _ n b _ _ segs hseg' _ hblock hstmt hchildren _ _ _ hsegs _ hspelled _ =>
    cases hseg.symm.trans hseg'
    refine ⟨n, b, segs, hblock, hstmt, ?_, hspelled.symm⟩
    rw [hchildren]
    exact Checked.mapM_of_forall₂ (List.forall₂_map_left_iff.2 hsegs)

theorem leaf_facts (hseg : s.segment i = .ok seg) (hkind : seg.kind = .leaf) :
    seg.block = none ∧ seg.children = [] ∧ m.SingleCycle seg.stmts := by
  obtain ⟨os, parent, _, hl, _⟩ := exists_laid hlaid hpre hseg
  have hos := hl.eq_nil_of_leaf hseg hkind
  subst hos
  cases hl with
  | leaf hseg' _ _ hblock hchildren _ _ hstmts =>
    cases hseg.symm.trans hseg'
    exact ⟨hblock, hchildren, hstmts⟩
  | block hseg' _ _ _ _ _ _ _ _ hkinds =>
    cases hseg.symm.trans hseg'
    exact absurd hkind (ne_leaf hkinds)

theorem around_free (hseg : s.segment i = .ok seg) : ∀ j ∈ seg.prolog ++ seg.epilog, m.Free j := by
  obtain ⟨os, parent, _, hl, _⟩ := exists_laid hlaid hpre hseg
  cases hl with
  | leaf hseg' _ _ _ _ hprolog hepilog =>
    cases hseg.symm.trans hseg'
    rw [hprolog, hepilog]
    exact fun j hj => absurd hj List.not_mem_nil
  | block hseg' _ _ _ _ _ hprolog hepilog =>
    cases hseg.symm.trans hseg'
    exact fun j hj => (List.mem_append.1 hj).elim (hprolog j) (hepilog j)

end Tree

end Schedule

theorem Module.SingleCycle.filter_length_le {m : Module} {ss : List Nat} (h : m.SingleCycle ss) :
    (ss.filter (Checked.passes m.isBlocking)).length ≤ 1 := by
  obtain ⟨pre, mid, post, rfl, hpre, hpost, hmid⟩ := h
  have hnone : ∀ js : List Nat, (∀ j ∈ js, m.Free j) → js.filter (Checked.passes m.isBlocking) = [] := by
    intro js hjs
    rw [List.filter_eq_nil_iff]
    intro j hj
    have hfree : m.isBlocking j = .ok false := hjs j hj
    rw [Checked.passes, hfree]
    exact Bool.false_ne_true
  rw [List.filter_append, List.filter_append, hnone pre hpre, hnone post hpost, List.nil_append, List.append_nil]
  refine (List.length_filter_le _ _).trans ?_
  rcases hmid with rfl | ⟨j, y, rfl, _⟩
  · exact Nat.zero_le 1
  · exact Nat.le_refl 1

theorem Module.SingleCycle.free_or_yield {m : Module} {ss : List Nat} (h : m.SingleCycle ss) {j : Nat} (hj : j ∈ ss) :
    m.Free j ∨ ∃ y, m.stmt j = .ok (.yield y) := by
  obtain ⟨pre, mid, post, rfl, hpre, hpost, hmid⟩ := h
  rcases List.mem_append.1 hj with hj | hj
  · rcases List.mem_append.1 hj with hj | hj
    · exact .inl (hpre j hj)
    · rcases hmid with rfl | ⟨i, y, rfl, hy⟩
      · exact absurd hj List.not_mem_nil
      · exact .inr ⟨y, List.mem_singleton.1 hj ▸ hy⟩
  · exact .inl (hpost j hj)

/-- Nothing is lost, taken twice or moved when a module is scheduled. -/
theorem Module.schedule_faithful {d : Draft} {top : List Nat} {m : Module} (hm : d.finish top = .ok m) {s : Schedule}
    (hs : m.schedule = .ok s) : s.Faithful m := by
  obtain ⟨hlaid, hpre, root, hroot, _, hblock⟩ := schedule_laid (wellFormed_of_finish hm) hs
  have hparent : root.parent = none := by
    have hindex : (s.outline s.root).index = s.root := Arena.index_outlineTo _ _ _ _
    generalize s.outline s.root = o at hlaid hindex
    obtain ⟨i, os⟩ := o
    obtain rfl : i = s.root := hindex
    obtain ⟨seg, hseg, hparent, _⟩ := hlaid.exists_segment
    cases hroot.symm.trans hseg
    exact hparent
  have hleaf := fun i seg (hseg : s.segment i = .ok seg) (hkind : seg.kind = .leaf) =>
    Schedule.leaf_facts hlaid hpre hseg hkind
  exact
    { root := ⟨root, hroot, hparent, hblock⟩
      parent := fun i seg hseg => Schedule.parent_lists hlaid hpre hseg
      children := fun i seg hseg => Schedule.children_link_back hlaid hpre hseg
      preorder := Schedule.preorder_eq_range hpre
      block := fun i seg hseg => Schedule.children_spell_block hlaid hpre hseg
      leaf := fun i seg hseg hkind => ⟨(hleaf i seg hseg hkind).1, (hleaf i seg hseg hkind).2.1⟩
      free := fun i seg hseg => Schedule.around_free hlaid hpre hseg
      yield := fun i seg hseg hkind =>
        have hcycle := (hleaf i seg hseg hkind).2.2
        ⟨hcycle.filter_length_le, fun j hj => hcycle.free_or_yield hj⟩
      lone := schedule_lone hs }

/-- Free statements before, between and after blocks, a free branch, and an interface that takes one cycle. -/
def collector : Draft where
  name := "collector"
  registers := .ofList [("r", ⟨.bool, 0⟩)]
  vars := .empty
  inputs := [⟨"din", .bool⟩]
  outputs := [⟨"dout", .bool⟩]
  stmts := .ofList [.update "r" (.bool false), Draft.emit [some (.flag "a")], Draft.conditional (.flag "f") [1],
    .update "r" (.bool true), Draft.conditional (.flag "g") [3], Draft.container [2, 4], .update "r" (.flag "b"),
    .update "r" (.flag "c"), Draft.interface "din" [7]]

theorem collector_faithful : collector.finish [0, 5, 6, 8] = .ok (collector.enclose [0, 5, 6, 8]) ∧
    ∃ s, (collector.enclose [0, 5, 6, 8]).schedule = .ok s ∧ s.segments.size = 6 ∧
      s.Faithful (collector.enclose [0, 5, 6, 8]) := by
  have hm : collector.finish [0, 5, 6, 8] = .ok (collector.enclose [0, 5, 6, 8]) := rfl
  obtain ⟨s, hs, hsize⟩ := Checked.exists_of_any (x := (collector.enclose [0, 5, 6, 8]).schedule)
    (p := fun s => s.segments.size == 6) (by decide +kernel)
  exact ⟨hm, s, hs, by simpa using hsize, Module.schedule_faithful hm hs⟩

end Sequencer
