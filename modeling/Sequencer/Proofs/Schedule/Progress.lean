import Sequencer.Proofs.Schedule.Staged

set_option autoImplicit false

/-!
# Every schedule can be staged

The segments of a schedule refer to statements of the module and to each other, so that states, ids and marks can
always be given out.
-/

namespace Sequencer

open Control

theorem Arena.set_succeeds {α : Type} {a : Arena α} {i : Nat} {x : α} (h : a.get i = .ok x) (y : α) :
    ∃ b, a.set i y = .ok b :=
  ⟨_, if_pos (lt_size_of_get? ((get_eq_ok_iff _ _ _).1 h))⟩

namespace Segment

/-- The statements that a segment refers to. -/
def mentioned (seg : Segment) : List Nat := seg.block.toList ++ seg.prolog ++ seg.stmts ++ seg.epilog

end Segment

namespace Schedule

/-- All segments at and below an outline are there, and so is what they refer to. -/
def Inside (m : Module) (s : Schedule) (o : Outline) : Prop :=
  ∀ i ∈ o.preorder, ∃ seg, s.segment i = .ok seg ∧ ∀ j ∈ seg.mentioned, j ∈ (m.outline m.root).preorder

theorem Inside.nested {m : Module} {s : Schedule} {i : Nat} {os : List Outline} (h : Inside m s (.node i os))
    {o : Outline} (ho : o ∈ os) : Inside m s o :=
  fun j hj => h j (Outline.mem_preorder_of_mem_nested ho hj)

theorem Laid.inside {m : Module} {s : Schedule} {parent : Option Nat} {o : Outline} (h : Laid m s parent o)
    (hm : m.WellFormed) (htop : ∀ seg, s.segment o.index = .ok seg → ∀ j ∈ seg.spelled, j ∈ (m.outline m.root).preorder) :
    Inside m s o := by
  induction h with
  | @leaf parent i seg hseg _ hkind hblock _ hprolog hepilog _ =>
    intro j hj
    obtain rfl : j = i := List.mem_singleton.1 hj
    refine ⟨seg, hseg, ?_⟩
    have hmentioned : seg.mentioned = seg.spelled := by simp [Segment.mentioned, Segment.spelled, hkind, hblock, hprolog]
    rw [hmentioned]
    exact htop seg hseg
  | @block parent i n b seg os segs hseg _ hblock hstmt _ hstmts _ _ hsegs hkind hspelled _ ih =>
    have hown : seg.spelled = seg.prolog ++ [n] ++ seg.epilog := Segment.spelled_of_block (ne_leaf hkind) hblock
    have hn : n ∈ (m.outline m.root).preorder := htop seg hseg n (by simp [hown])
    intro j hj
    rw [Outline.preorder_eq] at hj
    rcases List.mem_cons.1 hj with rfl | hj
    · refine ⟨seg, hseg, ?_⟩
      intro x hx
      refine htop seg hseg x ?_
      rw [Segment.mentioned, hblock, hstmts, Option.toList_some] at hx
      rw [hown]
      simp only [List.append_nil, List.mem_append] at hx ⊢
      tauto
    · obtain ⟨o, ho, hj⟩ := List.mem_flatMap.1 hj
      refine ih o ho ?_ j hj
      intro c hc x hx
      obtain ⟨c', hc', hoc⟩ := exists_of_mem_forall₂ hsegs.flip ho
      cases hc.symm.trans hoc
      have hmem : x ∈ b.stmts := hspelled ▸ List.mem_flatMap.2 ⟨c, hc', hx⟩
      exact (hm.nested hn hstmt hmem).1

end Schedule

namespace Numbering

open Checked Schedule

/-- Nothing but states and ids has changed so far. -/
structure Stays (m : Module) (s : Schedule) (n : Numbering) : Prop where
  module : m.Alike n.module
  schedule : s.Alike n.schedule

variable {m : Module} {s : Schedule}

theorem number_succeeds {i : Nat} {stmt : Stmt} (hstmt : m.stmt i = .ok stmt) :
    Succeeds (Stays m s) (number i) fun _ => True := by
  intro n hn
  obtain ⟨stmt', hstmt', _⟩ := hn.module.stmt hstmt
  obtain ⟨stmts, hstmts⟩ := Arena.set_succeeds hstmt' (stmt'.setId n.nextId)
  have hnumber : ∃ n', number i n = .ok ((), n') := by
    unfold number
    rw [hstmt', ok_bind]
    cases stmt' with
    | block b => exact ⟨_, bind_eq_ok.2 ⟨stmts, hstmts, rfl⟩⟩
    | yield y => exact ⟨_, bind_eq_ok.2 ⟨stmts, hstmts, rfl⟩⟩
    | update r v => exact ⟨_, rfl⟩
    | assign x v => exact ⟨_, rfl⟩
  obtain ⟨n', h⟩ := hnumber
  obtain ⟨hschedule, _, hmodule⟩ := number_eq_ok h
  exact ⟨(), n', h, ⟨hn.module.trans hmodule, hschedule ▸ hn.schedule⟩, trivial⟩

theorem numberAll_succeeds {is : List Nat} (h : ∀ i ∈ is, ∃ stmt, m.stmt i = .ok stmt) :
    Succeeds (Stays m s) (numberAll is) fun _ => True := by
  induction is with
  | nil => exact .pure trivial
  | cons i is ih =>
    obtain ⟨⟨stmt, hstmt⟩, his⟩ := List.forall_mem_cons.1 h
    exact (number_succeeds hstmt).bind fun _ _ => ih his

theorem segment_succeeds {i : Nat} {seg : Segment} (hseg : s.segment i = .ok seg) :
    Succeeds (Stays m s) (segment i) fun seg' => ∃ states, seg' = { seg with states := states } := by
  intro n hn
  obtain ⟨states, hseg'⟩ := hn.schedule.segment hseg
  exact ⟨_, n, bind_eq_ok.2 ⟨_, hseg', rfl⟩, hn, states, rfl⟩

theorem setStates_succeeds {i : Nat} {seg : Segment} (hseg : s.segment i = .ok seg) (states : List Nat) :
    Succeeds (Stays m s) (setStates i states) fun _ => True := by
  intro n hn
  obtain ⟨old, hseg'⟩ := hn.schedule.segment hseg
  obtain ⟨segs, hsegs⟩ := Arena.set_succeeds hseg' { { seg with states := old } with states := states }
  have hset : n.schedule.setStates i states = .ok { n.schedule with segments := segs } :=
    bind_eq_ok.2 ⟨_, hseg', bind_eq_ok.2 ⟨segs, hsegs, rfl⟩⟩
  exact ⟨(), _, bind_eq_ok.2 ⟨_, hset, rfl⟩, ⟨hn.module, hn.schedule.trans (alike_setStates hset)⟩, trivial⟩

theorem mergeStates_succeeds {i c : Nat} {seg child : Segment} (hseg : s.segment i = .ok seg)
    (hchild : s.segment c = .ok child) : Succeeds (Stays m s) (mergeStates i c) fun _ => True :=
  (segment_succeeds hchild).bind fun _ _ => (segment_succeeds hseg).bind fun _ _ => setStates_succeeds hseg _

theorem newState_succeeds : Succeeds (Stays m s) newState fun _ => True :=
  fun _ hn => ⟨_, _, rfl, ⟨hn.module, hn.schedule⟩, trivial⟩

mutual
theorem visit_succeeds (hm : m.WellFormed) : (o : Outline) → Inside m s o → ∀ entry,
    Succeeds (Stays m s) (visit entry o) fun _ => True
  | .node i os, hin, entry => by
    obtain ⟨seg, hseg, hmentioned⟩ := hin i List.mem_cons_self
    have hnumber : ∀ {js : List Nat}, (∀ j ∈ js, j ∈ seg.mentioned) →
        Succeeds (Stays m s) (numberAll js) fun _ => True := by
      intro js hjs
      refine numberAll_succeeds fun j hj => ?_
      obtain ⟨stmt, hstmt, _⟩ := hm.fits j (hmentioned j (hjs j hj))
      exact ⟨stmt, hstmt⟩
    refine (setStates_succeeds hseg [entry]).bind fun _ _ => (segment_succeeds hseg).bind ?_
    rintro _ ⟨states, rfl⟩
    refine (hnumber fun j hj => ?_).bind fun _ _ => ?_
    · simp only [Segment.mentioned, List.mem_append]
      exact .inl (.inl (.inl hj))
    · have hchildren := fun kind => visitChildren_succeeds hm os (fun o ho => hin.nested ho) hseg kind entry
      cases hkind : seg.kind with
      | leaf =>
        refine hnumber fun j hj => ?_
        simp only [Segment.mentioned, List.mem_append]
        exact .inl (.inr hj)
      | seq => exact hchildren .seq
      | mutex => exact hchildren .mutex
theorem visitChildren_succeeds (hm : m.WellFormed) : (os : List Outline) → (∀ o ∈ os, Inside m s o) →
    ∀ {i : Nat} {seg : Segment}, s.segment i = .ok seg → ∀ kind entry,
    Succeeds (Stays m s) (visitChildren i kind entry os) fun _ => True
  | [], _, i, seg, _, kind, entry => .pure trivial
  | o :: os, hin, i, seg, hseg, kind, entry => by
    obtain ⟨ho, hos⟩ := List.forall_mem_cons.1 hin
    obtain ⟨child, hchild, _⟩ := ho o.index o.index_mem_preorder
    refine (visit_succeeds hm o ho entry).bind fun _ _ => (mergeStates_succeeds hseg hchild).bind fun _ _ => ?_
    split
    · exact newState_succeeds.bind fun e _ => visitChildren_succeeds hm os hos hseg kind e
    · exact (Succeeds.pure (Q := fun _ => True) trivial).bind fun e _ => visitChildren_succeeds hm os hos hseg kind e
end

end Numbering

namespace Module

namespace Marking

open Checked Schedule

variable {m : Module} {s : Schedule}

theorem mark_succeeds {i : Nat} {stmt : Stmt} (hstmt : m.stmt i = .ok stmt) (written : List String) :
    Succeeds m.Alike (mark written i) fun _ => True := by
  intro m₁ hm
  have hmark : ∃ m', mark written i m₁ = .ok ((), m') := by
    unfold mark
    split
    · exact ⟨m₁, rfl⟩
    · obtain ⟨stmt', hstmt', _⟩ := hm.stmt hstmt
      obtain ⟨stmts, hstmts⟩ := Arena.set_succeeds hstmt' (stmt'.mapExprs (Expr.mapOperands (Operand.afterWrites written)))
      exact ⟨_, bind_eq_ok.2 ⟨stmt', hstmt', bind_eq_ok.2 ⟨stmts, hstmts, rfl⟩⟩⟩
  obtain ⟨m', h⟩ := hmark
  exact ⟨(), m', h, hm.trans (kept_alike.mark written i _ _ _ h), trivial⟩

theorem stmt_succeeds {i : Nat} {stmt : Stmt} (hstmt : m.stmt i = .ok stmt) :
    Succeeds m.Alike (Marking.stmt i) fun _ => True := by
  intro m₁ hm
  obtain ⟨stmt', hstmt', _⟩ := hm.stmt hstmt
  exact ⟨stmt', m₁, bind_eq_ok.2 ⟨stmt', hstmt', rfl⟩, hm, trivial⟩

mutual
theorem markOutline_succeeds : (o : Outline) → (∀ j ∈ o.preorder, ∃ stmt, m.stmt j = .ok stmt) → ∀ written,
    Succeeds m.Alike (markOutline written o) fun _ => True
  | .node i os, hin, written => by
    obtain ⟨stmt, hstmt⟩ := hin i List.mem_cons_self
    refine (mark_succeeds hstmt written).bind fun _ _ => (stmt_succeeds hstmt).bind fun stmt' _ => ?_
    cases stmt' with
    | block b =>
      refine markAll_succeeds os (fun j hj => hin j ?_) written
      rw [Outline.preorder_eq]
      exact List.mem_cons_of_mem _ hj
    | yield y => exact .pure trivial
    | update r v => exact .pure trivial
    | assign x v => exact .pure trivial
theorem markAll_succeeds : (os : List Outline) → (∀ j ∈ os.flatMap Outline.preorder, ∃ stmt, m.stmt j = .ok stmt) →
    ∀ written, Succeeds m.Alike (markAll written os) fun _ => True
  | [], _, written => .pure trivial
  | o :: os, hin, written => by
    rw [List.flatMap_cons] at hin
    exact (markOutline_succeeds o (fun j hj => hin j (List.mem_append_left _ hj)) written).bind fun w _ =>
      markAll_succeeds os (fun j hj => hin j (List.mem_append_right _ hj)) w
end

theorem markStmts_succeeds (hwf : m.WellFormed) {stmts : List Nat} (hin : ∀ j ∈ stmts, j ∈ (m.outline m.root).preorder)
    (written : List String) : Succeeds m.Alike (markStmts written stmts) fun _ => True := by
  intro m₁ hm
  have hall : ∀ j ∈ (stmts.map m₁.outline).flatMap Outline.preorder, ∃ stmt, m.stmt j = .ok stmt := by
    intro j hj
    obtain ⟨o, ho, hj⟩ := List.mem_flatMap.1 hj
    obtain ⟨x, hx, rfl⟩ := List.mem_map.1 ho
    rw [hm.outline] at hj
    obtain ⟨stmt, hstmt, _⟩ := hwf.fits j (hwf.preorder_subset (hin x hx) j hj)
    exact ⟨stmt, hstmt⟩
  exact markAll_succeeds _ hall written m₁ hm

mutual
theorem visit_succeeds (hwf : m.WellFormed) : (o : Outline) → Inside m s o → ∀ written,
    Succeeds m.Alike (visit s written o) fun _ => True
  | .node i os, hin, written => by
    obtain ⟨seg, hseg, hmentioned⟩ := hin i List.mem_cons_self
    have hmark : ∀ {js : List Nat}, (∀ j ∈ js, j ∈ seg.mentioned) → ∀ w,
        Succeeds m.Alike (markStmts w js) fun _ => True :=
      fun hjs w => markStmts_succeeds hwf (fun j hj => hmentioned j (hjs j hj)) w
    have hsegment : Succeeds m.Alike (liftM (s.segment i) : Marking Segment) fun seg' => seg = seg' :=
      fun m₁ hm => ⟨seg, m₁, by rw [hseg]; rfl, hm, rfl⟩
    refine hsegment.bind fun seg' hseg' => ?_
    subst hseg'
    refine (hmark (fun j hj => ?_) written).bind fun w _ => ?_
    · simp only [Segment.mentioned, List.mem_append]
      exact .inl (.inl (.inr hj))
    · have hepilog : ∀ {x : Marking (List String)}, Succeeds m.Alike x (fun _ => True) →
          Succeeds m.Alike (x >>= fun out => markStmts out seg.epilog) fun _ => True := by
        refine fun hx => hx.bind fun out _ => hmark (fun j hj => ?_) out
        simp only [Segment.mentioned, List.mem_append]
        exact .inr hj
      have hblock : ∀ {f : PUnit → Marking (List String)}, Succeeds m.Alike (f ⟨⟩) (fun _ => True) →
          Succeeds m.Alike (match seg.block with
            | some b => mark w b >>= f
            | none => pure ⟨⟩ >>= f) fun _ => True := by
        intro f hf
        cases hb : seg.block with
        | none => exact (Succeeds.pure (Q := fun _ => True) trivial).bind fun _ _ => hf
        | some b =>
          obtain ⟨stmt, hstmt, _⟩ := hwf.fits b (hmentioned b (by simp [Segment.mentioned, hb]))
          exact (mark_succeeds hstmt w).bind fun _ _ => hf
      have hos : ∀ o ∈ os, Inside m s o := fun o ho => hin.nested ho
      refine hblock ?_
      cases hkind : seg.kind with
      | leaf =>
        refine hepilog (hmark (fun j hj => ?_) w)
        simp only [Segment.mentioned, List.mem_append]
        exact .inl (.inr hj)
      | seq => exact hepilog (visitSeq_succeeds hwf os hos w)
      | mutex =>
        dsimp only
        split
        · exact hepilog (.pure trivial)
        · exact hepilog (visitMutex_succeeds hwf os hos w)
theorem visitSeq_succeeds (hwf : m.WellFormed) : (os : List Outline) → (∀ o ∈ os, Inside m s o) → ∀ written,
    Succeeds m.Alike (visitSeq s written os) fun _ => True
  | [], _, written => .pure trivial
  | o :: os, hin, written => by
    obtain ⟨ho, hos⟩ := List.forall_mem_cons.1 hin
    refine (visit_succeeds hwf o ho written).bind fun out _ => ?_
    split
    · exact .pure trivial
    · exact visitSeq_succeeds hwf os hos []
theorem visitMutex_succeeds (hwf : m.WellFormed) : (os : List Outline) → (∀ o ∈ os, Inside m s o) → ∀ written,
    Succeeds m.Alike (visitMutex s written os) fun _ => True
  | [], _, written => .pure trivial
  | o :: os, hin, written => by
    obtain ⟨ho, hos⟩ := List.forall_mem_cons.1 hin
    exact (visit_succeeds hwf o ho written).bind fun _ _ => (visitMutex_succeeds hwf os hos written).bind fun _ _ =>
      .pure trivial
end

end Marking

theorem schedule_inside {m : Module} (hm : m.WellFormed) {s : Schedule} (hs : m.schedule = .ok s) :
    s.Inside m (s.outline s.root) := by
  obtain ⟨hlaid, _, root, hroot, hspelled, _⟩ := schedule_laid hm hs
  refine hlaid.inside hm ?_
  intro seg hseg j hj
  rw [s.index_outline, hroot] at hseg
  cases hseg
  obtain rfl : j = m.root := by simpa [hspelled] using hj
  exact m.mem_outline m.root

theorem stage_succeeds {m : Module} (hm : m.WellFormed) {s : Schedule} (hs : m.schedule = .ok s) :
    ∃ st, m.stage s = .ok st := by
  have hin := schedule_inside hm hs
  obtain ⟨⟨⟩, n, hvisit, hn, _⟩ := Numbering.visit_succeeds hm _ hin 0 ⟨m, s, 0, 0⟩ ⟨.refl m, .refl s⟩
  have hrun : Numbering.run m s = .ok n := Checked.bind_eq_ok.2 ⟨_, hvisit, rfl⟩
  have hwf : n.module.WellFormed := hn.module.wellFormed hm
  have hin' : n.schedule.Inside n.module (n.schedule.outline n.schedule.root) := by
    rw [hn.schedule.root, hn.schedule.outline]
    intro i hi
    obtain ⟨seg, hseg, hmentioned⟩ := hin i hi
    obtain ⟨states, hseg'⟩ := hn.schedule.segment hseg
    refine ⟨_, hseg', fun j hj => ?_⟩
    rw [hn.module.root, hn.module.outline]
    exact hmentioned j hj
  obtain ⟨out, m', hmark, _⟩ := Marking.visit_succeeds hwf _ hin' [] n.module (.refl _)
  exact ⟨_, Checked.bind_eq_ok.2 ⟨n, hrun, Checked.bind_eq_ok.2 ⟨m', Checked.bind_eq_ok.2 ⟨_, hmark, rfl⟩, rfl⟩⟩⟩

end Module

end Sequencer
