import Sequencer.Proofs.Condition.Cycle
import Sequencer.Proofs.Expr.Truth
import Sequencer.Proofs.Lowering.Needed

set_option autoImplicit false

/-!
# Capturing is complete

A run for the conditions finds all that it looks up. It fails only where a guard is put together with a test of the state
and the width of the guard overflows. A run that ends defines the conditions that are needed and no others.
-/

namespace Sequencer

namespace Lowering

open Control Lower

section Completes

variable {α β : Type} {ctx : Context} {Q : α → Prop} {Q' : β → Prop}

/-- A run for the conditions gets through the step, with a result as in `Q`. -/
def Lower.Completes (ctx : Context) (x : Lower α) (Q : α → Prop) : Prop :=
  ∀ s, (∃ c, s.aspect = .conditions c) → ∃ a s', Runs ctx x s a s' ∧ (∃ c, s'.aspect = .conditions c) ∧ Q a

namespace Lower.Completes

theorem pure {a : α} (h : Q a) : Completes ctx (Pure.pure a) Q := fun s hs => ⟨a, s, runs_pure.2 ⟨rfl, rfl⟩, hs, h⟩

theorem bind {x : Lower α} {f : α → Lower β} (hx : Completes ctx x Q) (hf : ∀ a, Q a → Completes ctx (f a) Q') :
    Completes ctx (x >>= f) Q' := by
  intro s hs
  obtain ⟨a, s', hrun, hs', ha⟩ := hx s hs
  obtain ⟨b, s'', hrun', hs'', hb⟩ := hf a ha s' hs'
  exact ⟨b, s'', runs_bind.2 ⟨a, s', hrun, hrun'⟩, hs'', hb⟩

theorem mono {R : α → Prop} {x : Lower α} (h : Completes ctx x Q) (hQ : ∀ a, Q a → R a) : Completes ctx x R := by
  intro s hs
  obtain ⟨a, s', hrun, hs', ha⟩ := h s hs
  exact ⟨a, s', hrun, hs', hQ a ha⟩

theorem check {x : Checked α} {a : α} (hx : x = .ok a) (h : Q a) : Completes ctx (Lowering.check x) Q :=
  fun s hs => ⟨a, s, runs_check.2 ⟨hx, rfl⟩, hs, h⟩

theorem read_bind {f : Context → Lower β} (h : Completes ctx (f ctx) Q') : Completes ctx (read >>= f) Q' := h

theorem aspect_bind {f : Aspect → Lower β} (h : ∀ c, Completes ctx (f (.conditions c)) Q') :
    Completes ctx (aspect >>= f) Q' := by
  intro s hs
  obtain ⟨c, hc⟩ := hs
  obtain ⟨b, s', hrun, hb⟩ := h c s ⟨c, hc⟩
  exact ⟨b, s', runs_bind.2 ⟨_, s, runs_aspect.2 ⟨hc.symm, rfl⟩, hrun⟩, hb⟩

theorem setAspect (c : Capture) : Completes ctx (setAspect (.conditions c)) fun _ => True :=
  fun _ _ => ⟨(), _, runs_setAspect.2 rfl, ⟨c, rfl⟩, trivial⟩

theorem modify (f : Session → Session) (hf : ∀ s, (f s).aspect = s.aspect) :
    Completes ctx (modify f : Lower PUnit) fun _ => True :=
  fun s hs => ⟨(), _, runs_modify.2 rfl, (hf s).symm ▸ hs, trivial⟩

theorem cycle {x : Lower α} {f : α → Lower β} (c : Cond) (hx : Completes ctx x Q)
    (hf : ∀ a, Q a → Completes ctx (f a) Q') : Completes ctx (do pushCycle c; let a ← x; popCycle; f a) Q' := by
  have hpush : Completes ctx (pushCycle c) fun _ => True := modify _ fun _ => rfl
  have hpop : Completes ctx popCycle fun _ => True := modify _ fun _ => rfl
  exact hpush.bind fun _ _ => hx.bind fun a ha => hpop.bind fun _ _ => hf a ha

theorem stmt {i : Nat} {st : Stmt} (h : ctx.module.stmt i = .ok st) : Completes ctx (stmt i) (st = ·) :=
  read_bind (check h rfl)

theorem block? {i : Nat} {st : Stmt} (h : ctx.module.stmt i = .ok st) : Completes ctx (block? i) (st.block? = ·) := by
  refine read_bind (check ?_ rfl)
  rw [Module.block?, h]
  rfl

theorem segment {i : Nat} {seg : Segment} (h : ctx.schedule.segment i = .ok seg) : Completes ctx (segment i) (seg = ·) :=
  read_bind (check h rfl)

theorem timing {i : Nat} {t : Timing} (h : ctx.table.timing i = .ok t) : Completes ctx (timing i) (t = ·) :=
  read_bind (check h rfl)

theorem currentCycle : Completes ctx currentCycle fun _ => True :=
  fun s hs => ⟨_, s, runs_currentCycle.2 ⟨rfl, rfl⟩, hs, trivial⟩

theorem settled (b : Comb.Block) : Completes ctx (settled b) fun _ => True := aspect_bind fun _ => pure trivial

/-- There is a test of the state only inside another segment, and it has no truth value of its own. -/
theorem narrow (parent : Option (List Nat)) (states : List Nat) :
    Completes ctx (narrow parent states) fun c => (∀ e ∈ c, e.asBool = .ok none) ∧
      (c ≠ none → ∃ p, parent = some p ∧ ctx.table.space.narrow states p = .ok c) := by
  cases parent with
  | none => exact pure (by simp)
  | some p =>
    obtain ⟨c, hc, hundecided⟩ := ctx.table.space.exists_narrow states p
    exact read_bind (check hc ⟨hundecided, fun _ => ⟨p, rfl, hc⟩⟩)

theorem enterBlock {i : Nat} {st : Stmt} (h : ctx.module.stmt i = .ok st) : Completes ctx (enterBlock i) fun _ => True := by
  refine aspect_bind fun c => (block? h).bind fun blk _ => ?_
  cases blk with
  | none => exact pure trivial
  | some b => exact read_bind ((setAspect _).bind fun _ _ => pure trivial)

theorem visitBlock {i : Nat} {st : Stmt} (h : ctx.module.stmt i = .ok st) :
    Completes ctx (visitBlock i) fun head => head.guard = st.block?.bind Block.guard := by
  refine (block? h).bind ?_
  rintro _ rfl
  exact (enterBlock h).bind fun stmts _ => pure rfl

theorem visitYield (y : Yield) : Completes ctx (visitYield y) fun _ => True :=
  aspect_bind fun _ => read_bind ((setAspect _).bind fun _ _ => pure trivial)

mutual
theorem lowerOutline : (o : Outline) → (∀ j ∈ o.preorder, ∃ st, ctx.module.stmt j = .ok st) →
    Completes ctx (lowerOutline o) fun _ => True
  | .node i os, h => by
    rw [Outline.preorder_eq] at h
    obtain ⟨⟨st, hst⟩, hos⟩ := List.forall_mem_cons.1 h
    have hvisit : st.block? = none → Completes ctx (visit i) fun _ => True := by
      intro hnone
      refine (stmt hst).bind ?_
      rintro _ rfl
      cases st with
      | block b => cases hnone
      | yield y => exact visitYield y
      | update r v => exact aspect_bind fun _ => pure trivial
      | assign x v => exact aspect_bind fun _ => pure trivial
    refine (stmt hst).bind ?_
    rintro _ rfl
    cases st with
    | block b =>
      exact (visitBlock hst).bind fun _ _ => (lowerOutlines os hos).bind fun _ _ => (settled _).bind fun _ _ => pure trivial
    | yield y => exact hvisit rfl
    | update r v => exact hvisit rfl
    | assign x v => exact hvisit rfl
theorem lowerOutlines : (os : List Outline) → (∀ j ∈ os.flatMap Outline.preorder, ∃ st, ctx.module.stmt j = .ok st) →
    Completes ctx (lowerOutlines os) fun _ => True
  | [], _ => pure trivial
  | o :: os, h => by
    rw [List.flatMap_cons, List.forall_mem_append] at h
    exact (lowerOutline o h.1).bind fun _ _ => (lowerOutlines os h.2).bind fun _ _ => pure trivial
end

/-- The statements of the program are all there. -/
theorem freeStmts (hwf : ctx.module.WellFormed) {js : List Nat}
    (hin : ∀ j ∈ js, j ∈ (ctx.module.outline ctx.module.root).preorder) (guard c : Cond) :
    Completes ctx (freeStmts js guard c) fun _ => True := by
  refine cycle c (read_bind (lowerOutlines _ fun x hx => ?_)) fun _ _ => settled _
  obtain ⟨o, ho, hx⟩ := List.mem_flatMap.1 hx
  obtain ⟨j, hj, rfl⟩ := List.mem_map.1 ho
  obtain ⟨st, hst, _⟩ := hwf.fits x (hwf.preorder_subset (hin j hj) x hx)
  exact ⟨st, hst⟩

theorem copiesFor {node : Option Nat} (hnode : ∀ n, node = some n → ∃ st, ctx.module.stmt n = .ok st) :
    (trs : List Transition) → Completes ctx (copiesFor node trs) fun _ => True
  | [] => pure trivial
  | tr :: trs => by
    have hassign : ∀ b, Completes ctx (assignState b tr) fun _ => True := fun _ => aspect_bind fun _ => pure trivial
    have hentry : ∀ entry, Completes ctx (assignState (.of none entry) tr >>= Lowering.settled) fun _ => True :=
      fun _ => (hassign _).bind fun _ _ => settled _
    have hcopy : Completes ctx (stateCopy node tr) fun _ => True := by
      cases node with
      | none => exact (pure (Q := fun _ => True) trivial).bind fun _ _ => hentry _
      | some n =>
        obtain ⟨st, hst⟩ := hnode n rfl
        exact (visitBlock hst).bind fun _ _ => (settled _).bind fun _ _ =>
          (pure (Q := fun _ => True) trivial).bind fun _ _ => hentry _
    exact hcopy.bind fun _ _ => (copiesFor hnode trs).bind fun _ _ => pure trivial

end Lower.Completes

end Completes

section Scheduled

variable {ctx : Context} (hsched : Scheduled ctx)
  (htimed : ∀ i seg, ctx.schedule.segment i = .ok seg → ∃ t, ctx.table.timing i = .ok t)

include hsched

theorem Scheduled.completes_blockOf {i : Nat} {seg : Segment} (hseg : ctx.schedule.segment i = .ok seg) :
    Completes ctx (blockOf seg) fun _ => True := by
  obtain ⟨o, rfl, _, hconsistent⟩ := hsched.consistent.exists_part (hsched.mem_preorder hseg)
  rw [blockOf]
  cases hconsistent with
  | leaf h =>
    cases h.segment.symm.trans hseg
    rw [h.block]
    exact .pure trivial
  | block h _ =>
    cases h.segment.symm.trans hseg
    rw [h.block]
    exact (Completes.block? h.stmt).mono fun _ _ => trivial

theorem Scheduled.completes_changesState {i : Nat} {seg : Segment} (hseg : ctx.schedule.segment i = .ok seg)
    (parent : List Nat) : Completes ctx (changesState seg parent) fun _ => True := by
  have hmax : Completes ctx maxState fun _ => True := .read_bind (.pure trivial)
  refine hmax.bind fun n _ => ?_
  split
  · exact .pure trivial
  · split
    · exact .pure trivial
    · exact (hsched.completes_blockOf hseg).bind fun _ _ => .pure trivial

include htimed

theorem Scheduled.completes_transitionsFrom (source steps : Nat) {i : Nat} {seg : Segment}
    (hseg : ctx.schedule.segment i = .ok seg) : Completes ctx (transitionsFrom source steps i) fun _ => True := by
  induction steps generalizing i seg with
  | zero => exact .pure trivial
  | succ steps ih =>
    refine (Completes.segment hseg).bind ?_
    rintro _ rfl
    cases hparent : seg.parent with
    | none => exact .pure trivial
    | some p =>
      obtain ⟨os, n, b, P, segs, hfits, _⟩ := hsched.parent hseg hparent
      obtain ⟨t, ht⟩ := htimed i seg hseg
      refine (Completes.segment hfits.segment).bind ?_
      rintro _ rfl
      split
      · exact ih hfits.segment
      · refine (Completes.timing ht).bind fun _ _ => ?_
        dsimp only
        split
        · rename_i next hnext
          obtain ⟨o, ho, rfl⟩ := List.mem_map.1 (hfits.children ▸ List.mem_of_getElem? hnext)
          obtain ⟨c, _, hc⟩ := hfits.child ho
          exact (Completes.segment hc).bind fun _ _ => .pure trivial
        · exact (hsched.completes_blockOf hfits.segment).bind fun _ _ => (ih hfits.segment).bind fun _ _ => .pure trivial

theorem Scheduled.completes_stateCopies {i : Nat} {seg : Segment} (hseg : ctx.schedule.segment i = .ok seg)
    (hblock : ∀ n, seg.block = some n → ∃ st, ctx.module.stmt n = .ok st) (parent : Option (List Nat)) :
    Completes ctx (stateCopies i seg parent) fun _ => True := by
  cases parent with
  | none => exact .pure trivial
  | some p =>
    have htransitions : Completes ctx (transitions i) fun _ => True := by
      refine (Completes.segment hseg).bind ?_
      rintro _ rfl
      cases seg.firstState? with
      | none => exact .pure trivial
      | some source => exact .read_bind (hsched.completes_transitionsFrom htimed _ _ hseg)
    refine (hsched.completes_changesState hseg p).bind fun changes _ => ?_
    split
    · exact htransitions.bind fun trs _ => .copiesFor hblock trs
    · exact .pure trivial

theorem Scheduled.completes_lowerProlog {i : Nat} {seg : Segment} (hseg : ctx.schedule.segment i = .ok seg)
    (hin : ∀ j ∈ seg.prolog, j ∈ (ctx.module.outline ctx.module.root).preorder) (parent : Option (List Nat)) :
    Completes ctx (lowerProlog i seg parent) fun _ => True := by
  obtain ⟨t, ht⟩ := htimed i seg hseg
  unfold lowerProlog
  split
  · exact .pure trivial
  · exact (Completes.narrow _ _).bind fun guard _ => (Completes.timing ht).bind fun _ _ =>
      (Completes.freeStmts hsched.wellFormed hin _ _).bind fun _ _ => .pure trivial

omit htimed in
/-- The exit of a block is referred to by name, so that a test of the state can be put in front of it. -/
theorem Scheduled.completes_lowerEpilog {i : Nat} {seg : Segment} (hseg : ctx.schedule.segment i = .ok seg)
    (hkind : seg.kind ≠ .leaf) (hin : ∀ j ∈ seg.epilog, j ∈ (ctx.module.outline ctx.module.root).preorder)
    (parent : Option (List Nat)) : Completes ctx (lowerEpilog i seg parent) fun _ => True := by
  obtain ⟨_, _, _, id, _, _, hrefs, hdefined, _⟩ := hsched.defines i seg hseg hkind
  have ht : ctx.table.timing i = .ok (.ofBlock id) := ConditionTable.timing_of_refs hrefs hdefined.refs
  unfold lowerEpilog
  split
  · exact .pure trivial
  · refine (Completes.timing ht).bind ?_
    rintro _ rfl
    refine (Completes.narrow _ _).bind fun test htest => ?_
    have hexit : ∀ e ∈ (Timing.ofBlock id).exit, e.Measurable := by
      rintro _ ⟨⟩
      exact ⟨none, rfl⟩
    obtain ⟨guard, hguard⟩ := (Cond.and_succeeds_iff htest.1).2 fun _ => hexit
    exact (Completes.check (Q := fun _ => True) hguard trivial).bind fun _ _ =>
      (Completes.freeStmts hsched.wellFormed hin _ _).bind fun _ _ => .pure trivial

omit htimed in
theorem Scheduled.completes_withCopies {i : Nat} {seg : Segment} (hseg : ctx.schedule.segment i = .ok seg)
    (parent : Option (List Nat)) (body : Comb.Block) (copies : List Comb.Block) :
    Completes ctx (withCopies seg parent body copies) fun _ => True := by
  refine (hsched.completes_blockOf hseg).bind fun blk _ => ?_
  dsimp only
  split
  · exact (Completes.settled _).bind fun _ _ => .pure trivial
  · refine (Completes.settled _).bind fun _ _ => ?_
    split
    · exact .pure trivial
    · exact (Completes.narrow _ _).bind fun _ _ => .pure trivial

omit htimed in
theorem Scheduled.narrow_eq_none_iff {i p : Nat} {seg P : Segment} (hseg : ctx.schedule.segment i = .ok seg)
    (hparent : seg.parent = some p) (hP : ctx.schedule.segment p = .ok P) :
    ctx.table.space.narrow seg.states P.states = .ok none ↔ P.states ⊆ seg.states := by
  obtain ⟨os, n, b, P', segs, hfits, hos, _, _, o, ho, rfl⟩ := hsched.parent hseg hparent
  cases hP.symm.trans hfits.segment
  obtain ⟨hne, hnodup, _⟩ := (hos o ho).states hseg
  exact StateSpace.narrow_eq_none_iff hne hnodup hfits.states.nodup
    (fun k hk => hsched.mem_states_parent hseg hparent hk hP) hfits.states.le_max

end Scheduled

/-- A guard that is put together with a test of the state: that of a block whose segment has not all states of the one
around it. -/
inductive Context.TestsGuard (ctx : Context) (g : Expr) : Prop
  | block {i p n : Nat} {seg P : Segment} {b : Block} (segment : ctx.schedule.segment i = .ok seg)
    (parent : seg.parent = some p) (around : ctx.schedule.segment p = .ok P) (fewer : ¬ P.states ⊆ seg.states)
    (block : seg.block = some n) (stmt : ctx.module.stmt n = .ok (.block b)) (guard : b.guard = some g)

section Guards

variable {ctx : Context} (hsched : Scheduled ctx)

include hsched

/-- Of a test of the state and the guard of a block a conjunction is made unless the guard overflows. -/
theorem Scheduled.exists_full (hguards : ∀ g, ctx.TestsGuard g → ¬ g.Overflows) {i n : Nat} {seg : Segment} {b : Block}
    (hseg : ctx.schedule.segment i = .ok seg) (hblock : seg.block = some n) (hstmt : ctx.module.stmt n = .ok (.block b))
    {states : Option (List Nat)} (hstates : ∀ Q, states = some Q → ∃ p P, seg.parent = some p ∧
      ctx.schedule.segment p = .ok P ∧ P.states = Q) {guard : Cond} (hundecided : ∀ e ∈ guard, e.asBool = .ok none)
    (htest : guard ≠ none → ∃ Q, states = some Q ∧ ctx.table.space.narrow seg.states Q = .ok guard) :
    ∃ full, Cond.and guard b.guard = .ok full := by
  refine (Cond.and_succeeds_iff hundecided).2 fun hne g hg => Expr.measurable_iff.2 (hguards g ?_)
  obtain ⟨Q, hQ, hnarrow⟩ := htest hne
  obtain ⟨p, P, hparent, hP, rfl⟩ := hstates Q hQ
  refine .block hseg hparent hP (fun hsub => hne ?_) hblock hstmt hg
  exact Except.ok.inj (hnarrow.symm.trans ((hsched.narrow_eq_none_iff hseg hparent hP).2 hsub))

/-- The walk gets through each segment if the guards can be measured that are put together with a test of the state. -/
theorem Scheduled.completes_lowerSegment
    (htimed : ∀ i seg, ctx.schedule.segment i = .ok seg → ∃ t, ctx.table.timing i = .ok t)
    (hguards : ∀ g, ctx.TestsGuard g → ¬ g.Overflows) {o : Outline}
    (h : ctx.schedule.Consistent ctx.module ctx.table.maxState o) {states : Option (List Nat)}
    (hstates : ∀ Q, states = some Q → ∀ seg, ctx.schedule.segment o.index = .ok seg →
      ∃ p P, seg.parent = some p ∧ ctx.schedule.segment p = .ok P ∧ P.states = Q) :
    Completes ctx (lowerSegment states o) fun _ => True := by
  have hrest : ∀ {i : Nat} {seg : Segment}, ctx.schedule.segment i = .ok seg →
      (∀ n, seg.block = some n → ∃ st, ctx.module.stmt n = .ok st) → ∀ {states : Option (List Nat)},
      Completes ctx (lowerEpilog i seg states) (fun _ => True) → ∀ before body, Completes ctx (do
        let copies ← stateCopies i seg states
        let main ← withCopies seg states body copies
        let after ← lowerEpilog i seg states
        return before ++ main ++ after) fun _ => True := by
    intro i seg hseg hblock states hafter before body
    exact (hsched.completes_stateCopies htimed hseg hblock _).bind fun _ _ =>
      (hsched.completes_withCopies hseg _ _ _).bind fun _ _ => hafter.bind fun _ _ => .pure trivial
  induction h generalizing states with
  | @leaf i seg h =>
    obtain ⟨t, ht⟩ := htimed i seg h.segment
    have hbefore := hsched.completes_lowerProlog htimed h.segment (fun j hj => by simp [h.prolog] at hj) states
    have hafter : Completes ctx (lowerEpilog i seg states) fun _ => True := by
      rw [lowerEpilog, h.epilog]
      exact .pure trivial
    refine (Completes.segment h.segment).bind ?_
    rintro _ rfl
    refine (Completes.narrow _ _).bind fun guard _ => hbefore.bind fun before _ => ?_
    have hbody : ∀ cycle, Completes ctx (freeStmts seg.stmts guard cycle) fun _ => True :=
      .freeStmts hsched.wellFormed h.inside guard
    have hrest := hrest h.segment (fun n hn => by simp [h.block] at hn) hafter before
    rw [h.kind]
    refine (Completes.timing ht).bind ?_
    rintro _ rfl
    cases t.cycle with
    | some c => exact (Completes.pure (Q := fun _ => True) trivial).bind fun _ _ => (hbody _).bind fun _ _ => hrest _
    | none => exact Completes.currentCycle.bind fun _ _ => (hbody _).bind fun _ _ => hrest _
  | @block i n b seg os segs h hos ih =>
    obtain ⟨t, ht⟩ := htimed i seg h.segment
    have hbefore := hsched.completes_lowerProlog htimed h.segment (fun _ hj => h.inside_prolog hj) states
    have hafter := hsched.completes_lowerEpilog h.segment h.not_leaf (fun _ hj => h.inside_epilog hj) states
    have hinner : ∀ os' ⊆ os, Completes ctx (lowerSegments seg.states os') fun _ => True := by
      intro os' hsub
      induction os' with
      | nil => exact .pure trivial
      | cons o os' ihs =>
        obtain ⟨ho, hsub⟩ := List.cons_subset.1 hsub
        refine (ih o ho ?_).bind fun _ _ => (ihs hsub).bind fun _ _ => .pure trivial
        rintro _ ⟨⟩ c hoc
        obtain ⟨c', hc', hoc'⟩ := h.child ho
        cases hoc.symm.trans hoc'
        exact ⟨i, seg, h.parents c hc', h.segment, rfl⟩
    refine (Completes.segment h.segment).bind ?_
    rintro _ rfl
    refine (Completes.narrow _ _).bind fun guard hguard => hbefore.bind fun before _ => ?_
    obtain ⟨full, hfull⟩ := hsched.exists_full hguards h.segment h.block h.stmt
      (fun Q hQ => hstates Q hQ seg h.segment) hguard.1 hguard.2
    have hrest := hrest h.segment (fun n' hn' => ⟨_, Option.some.inj (h.block.symm.trans hn') ▸ h.stmt⟩) hafter before
    have hblock : Completes ctx (do
        let head ← visitBlock n
        let guard ← check (Cond.and guard head.guard)
        pushCycle (← timing i).cycle
        let inner ← lowerSegments seg.states os
        popCycle
        let body ← pure { head.append inner with guard := guard }
        let copies ← stateCopies i seg states
        let main ← withCopies seg states body copies
        let after ← lowerEpilog i seg states
        return before ++ main ++ after) fun _ => True := by
      refine (Completes.visitBlock h.stmt).bind fun head hhead => ?_
      have hhead : head.guard = b.guard := hhead
      rw [hhead]
      refine (Completes.check (Q := fun _ => True) hfull trivial).bind fun _ _ => (Completes.timing ht).bind ?_
      rintro _ rfl
      exact .cycle t.cycle (hinner os (List.Subset.refl os)) fun _ _ =>
        (Completes.pure (Q := fun _ => True) trivial).bind fun _ _ => hrest _
    rw [h.block]
    cases hkind : seg.kind with
    | leaf => exact absurd hkind h.not_leaf
    | seq => exact hblock
    | mutex => exact hblock

theorem Scheduled.completes_lowerModule
    (htimed : ∀ i seg, ctx.schedule.segment i = .ok seg → ∃ t, ctx.table.timing i = .ok t)
    (hguards : ∀ g, ctx.TestsGuard g → ¬ g.Overflows) : Completes ctx lowerModule fun _ => True := by
  have hmark : ∀ b, Completes ctx (markTree b) fun _ => True := fun _ => .read_bind (.modify _ fun _ => rfl)
  have hroot : Completes ctx (lowerSegment none (ctx.schedule.outline ctx.schedule.root)) fun _ => True :=
    hsched.completes_lowerSegment htimed hguards hsched.consistent (by rintro _ ⟨⟩)
  exact .read_bind (hroot.bind fun _ _ => (Completes.settled _).bind fun b _ => (hmark b).bind fun _ _ => .pure trivial)

omit hsched in
/-- A walk that ends has been through all segments. -/
theorem runs_of_part {o o' : Outline} (hpart : o'.Part o) (h : ctx.schedule.Consistent ctx.module ctx.table.maxState o)
    {states : Option (List Nat)} {s s' : Session} {ss : List Comb.Stmt} (hss : Runs ctx (lowerSegment states o) s ss s') :
    ∃ states s₁ ts s₂, Runs ctx (lowerSegment states o') s₁ ts s₂ := by
  induction hpart generalizing states s ss s' with
  | refl => exact ⟨states, s, ss, s', hss⟩
  | nested ho _ ih =>
    cases h with
    | leaf _ => cases ho
    | block hfits hos =>
      obtain ⟨r⟩ := runs_lowerSegment_block hfits.segment hfits.not_leaf hfits.block hss
      obtain ⟨s₁, ts, s₂, _, hts, _⟩ := runs_of_mem_lowerSegments ho r.inner_runs
      exact ih (hos _ ho) hts

/-- If the walk ends, then it has put the guards together with the tests. -/
theorem Scheduled.not_overflows_of_run {s s' : Session} {tree : Comb.Block} (h : Runs ctx lowerModule s tree s') {g : Expr}
    (hg : ctx.TestsGuard g) : ¬ g.Overflows := by
  obtain @⟨i, p, n, seg, P, b, hseg, hparent, hP, hfewer, hblock, hstmt, hguard⟩ := hg
  obtain ⟨os, _, _, P', segs, hfits, hos, _, hpart, o, ho, rfl⟩ := hsched.parent hseg hparent
  cases hP.symm.trans hfits.segment
  obtain ⟨ss, s₁, hss, _⟩ := runs_lowerModule h
  obtain ⟨states, s₂, ts, s₃, hts⟩ := runs_of_part hpart hsched.consistent hss
  obtain ⟨r⟩ := runs_lowerSegment_block hfits.segment hfits.not_leaf hfits.block hts
  obtain ⟨s₄, us, s₅, _, hus, _⟩ := runs_of_mem_lowerSegments ho r.inner_runs
  cases hos o ho with
  | leaf hleaf =>
    cases hleaf.segment.symm.trans hseg
    cases hleaf.block.symm.trans hblock
  | block hfits' _ =>
    cases hfits'.segment.symm.trans hseg
    cases hfits'.block.symm.trans hblock
    cases hfits'.stmt.symm.trans hstmt
    obtain ⟨r'⟩ := runs_lowerSegment_block hseg hfits'.not_leaf hblock hus
    have hnarrow := (runs_narrow.1 r'.guard_runs).1
    obtain ⟨c, hc, hundecided⟩ := ctx.table.space.exists_narrow seg.states P.states
    cases hnarrow.symm.trans hc
    have hne : r'.guard ≠ none := fun hnone =>
      hfewer ((hsched.narrow_eq_none_iff hseg hparent hP).1 (hnone ▸ hnarrow))
    exact Expr.measurable_iff.1 ((Cond.and_succeeds_iff hundecided).1 ⟨_, r'.full_eq' hfits'⟩ hne g hguard)

end Guards

end Lowering

open Lowering

/-- A run for the conditions in use ends unless a guard overflows that is put together with a test of the state. If it ends
then the definitions are those of the least set of conditions that suffices, each once and with the value of the table. -/
theorem needed_conditions_materialized {d : Draft} {top : List Nat} {m : Module} (hm : d.finish top = .ok m)
    {schedule : Schedule} (hschedule : m.schedule = .ok schedule) {st : Staged} (hst : m.stage schedule = .ok st)
    {table : ConditionTable} (htable : ConditionTable.build st.module st.schedule st.maxState = .ok table)
    {used : List String} (hused : ∀ n ∈ used, table.contains n = true) (s : Session) :
    ((∃ tree s', runAspect ⟨st.module, st.schedule, table⟩ s (.freshConditions used) = (.ok tree, s')) ↔
      ∀ g, Context.TestsGuard ⟨st.module, st.schedule, table⟩ g → ¬ g.Overflows) ∧
    ∀ tree s', runAspect ⟨st.module, st.schedule, table⟩ s (.freshConditions used) = (.ok tree, s') →
      ∃ c, s'.aspect = .conditions c ∧ table.Materializes m st.schedule.root used (c.finish table) := by
  obtain ⟨hsched, halike, _⟩ := scheduled_of_build hm hschedule hst htable
  have hpairs := ConditionTable.pairs_build htable hsched.preorder
    (Module.stage_distinctIds (Module.wellFormed_of_finish hm) hschedule hst)
  have htimed : ∀ i seg, st.schedule.segment i = .ok seg → ∃ t, table.timing i = .ok t :=
    fun _ _ hseg => hsched.defines.exists_timing hpairs hseg
  refine ⟨⟨?_, fun hguards => ?_⟩, fun tree s' h => ?_⟩
  · rintro ⟨tree, s', h⟩ g hg
    exact hsched.not_overflows_of_run h hg
  · obtain ⟨tree, s', h, _⟩ := hsched.completes_lowerModule htimed hguards { s with aspect := .freshConditions used }
      ⟨_, rfl⟩
    exact ⟨tree, s', h⟩
  · obtain ⟨c, hc, hdefs⟩ := hsched.materializes htable hused h
    exact ⟨c, hc, hdefs.alike halike⟩

/-- A value that is passed on when there is one, and a pause in which a register is set. -/
def pausing : Draft where
  name := "pausing"
  registers := .ofList [("r", ⟨.uint 8, 0⟩)]
  vars := .empty
  inputs := [⟨"din", .uint 8⟩]
  outputs := [⟨"dout", .uint 8⟩]
  stmts := .ofList [Draft.emit [some (.literal 1 (.uint 8))], Draft.interface "din" [0], Draft.emit [none],
    .update "r" (.literal 1 (.uint 8))]

def pausingStaged : Staged where
  module := { pausing.enclose [1, 2, 3] with
    stmts := .ofList [.yield ⟨[some (.literal 1 (.uint 8))], some 2⟩,
      .block ⟨.interface "din", some (Draft.valid "din"), [0], some 1⟩, .yield ⟨[none], some 3⟩,
      .update "r" (.literal 1 (.uint 8)), .block ⟨.module, none, [1, 2, 3], some 0⟩] }
  schedule := ⟨.ofList [⟨.seq, some 4, none, [1, 3], [0, 1], [], [], []⟩, ⟨.seq, some 1, some 0, [2], [0], [], [], []⟩,
    ⟨.leaf, none, some 1, [], [0], [0], [], []⟩, ⟨.leaf, none, some 0, [], [1], [2, 3], [], []⟩], 0⟩
  maxState := 1

theorem pausing_stage : ((pausing.enclose [1, 2, 3]).schedule >>= (pausing.enclose [1, 2, 3]).stage) = .ok pausingStaged := by
  decide +kernel

/-- With the cycle of the interface in use, the one for a reset and four of the eight conditions of the table are needed. -/
theorem pausing_materialized : ∃ schedule table tree s' c, (pausing.enclose [1, 2, 3]).schedule = .ok schedule ∧
    (pausing.enclose [1, 2, 3]).stage schedule = .ok pausingStaged ∧
    ConditionTable.build pausingStaged.module pausingStaged.schedule 1 = .ok table ∧
    table.contains (Name.cycleCond 1) = true ∧
    (Context.TestsGuard ⟨pausingStaged.module, pausingStaged.schedule, table⟩ (Draft.valid "din") ∧
      ¬ (Draft.valid "din").Overflows) ∧
    runAspect ⟨pausingStaged.module, pausingStaged.schedule, table⟩ (.start .registers)
      (.freshConditions [Name.cycleCond 1]) = (.ok tree, s') ∧
    s'.aspect = .conditions c ∧
    table.Materializes (pausing.enclose [1, 2, 3]) 0 [Name.cycleCond 1] (c.finish table) ∧
    Network.names (c.finish table) =
      [Name.resetCond, Name.exitCond 0, Name.exitCond 3, Name.cycleCond 1, Name.cycleCond 2] := by
  have hm : pausing.finish [1, 2, 3] = .ok (pausing.enclose [1, 2, 3]) := rfl
  obtain ⟨schedule, hschedule, hst⟩ := Checked.bind_eq_ok.1 pausing_stage
  have hruns : ((ConditionTable.build pausingStaged.module pausingStaged.schedule 1).toOption.any fun t =>
      let r := runAspect ⟨pausingStaged.module, pausingStaged.schedule, t⟩ (.start .registers)
        (.freshConditions [Name.cycleCond 1])
      t.contains (Name.cycleCond 1) && r.1.toOption.isSome && r.2.aspect.capture?.any fun c =>
        Network.names (c.finish t) ==
          [Name.resetCond, Name.exitCond 0, Name.exitCond 3, Name.cycleCond 1, Name.cycleCond 2]) = true := by
    decide +kernel
  obtain ⟨table, htable, hruns⟩ := Checked.exists_of_any hruns
  simp only [Bool.and_eq_true] at hruns
  obtain ⟨⟨hcontains, htree⟩, hnames⟩ := hruns
  obtain ⟨tree, htree⟩ := Checked.exists_ok htree
  obtain ⟨s', hrun⟩ : ∃ s', runAspect ⟨pausingStaged.module, pausingStaged.schedule, table⟩ (.start .registers)
      (.freshConditions [Name.cycleCond 1]) = (.ok tree, s') := ⟨_, Prod.ext htree rfl⟩
  have hused : ∀ n ∈ [Name.cycleCond 1], table.contains n = true := by simpa using hcontains
  obtain ⟨hends, hdefs⟩ := needed_conditions_materialized hm hschedule hst htable hused (.start .registers)
  obtain ⟨c, hc, hdefs⟩ := hdefs tree s' hrun
  rw [hrun, hc] at hnames
  have htests : Context.TestsGuard ⟨pausingStaged.module, pausingStaged.schedule, table⟩ (Draft.valid "din") :=
    .block (i := 1) (p := 0) rfl rfl rfl (show ¬ [0, 1] ⊆ [0] by decide) rfl rfl rfl
  exact ⟨schedule, table, tree, s', c, hschedule, hst, htable, hcontains, ⟨htests, hends.1 ⟨tree, s', hrun⟩ _ htests⟩,
    hrun, hc, hdefs, eq_of_beq hnames⟩

/-- An interface under a constant of a type that is wider than can be counted, and a value in another state. -/
def oversized : Draft where
  name := "oversized"
  registers := .ofList [("r", ⟨.uint 8, 0⟩)]
  vars := .empty
  inputs := [⟨"din", .uint 8⟩]
  outputs := [⟨"dout", .uint 8⟩]
  stmts := .ofList [.block ⟨.interface "din", some (.literal 1 ⟨.tuple, [(DataType.uint 9223372036854775808).toArg,
      (DataType.uint 9223372036854775808).toArg]⟩), [], none⟩, Draft.emit [some (.literal 0 (.uint 8))]]

/-- The table is built, as the interface never waits for what is inside it, but the run for the conditions does not end. -/
theorem oversized_aborts : ∃ m schedule st table, oversized.finish [0, 1] = .ok m ∧ m.schedule = .ok schedule ∧
    m.stage schedule = .ok st ∧ ConditionTable.build st.module st.schedule st.maxState = .ok table ∧
    (runAspect ⟨st.module, st.schedule, table⟩ (.start .registers) (.freshConditions [])).1 = .abort .addOverflow := by
  have hm : oversized.finish [0, 1] = .ok (oversized.enclose [0, 1]) := rfl
  have habort : ((oversized.enclose [0, 1]).schedule.toOption.any fun s =>
      ((oversized.enclose [0, 1]).stage s).toOption.any fun st =>
        (ConditionTable.build st.module st.schedule st.maxState).toOption.any fun t =>
          (runAspect ⟨st.module, st.schedule, t⟩ (.start .registers) (.freshConditions [])).1 == .abort .addOverflow) =
      true := by
    decide +kernel
  obtain ⟨s, hs, hstage⟩ := Checked.exists_of_any habort
  obtain ⟨st, hst, hbuild⟩ := Checked.exists_of_any hstage
  obtain ⟨t, ht, hrun⟩ := Checked.exists_of_any hbuild
  exact ⟨_, s, st, t, hm, hs, hst, ht, eq_of_beq hrun⟩

end Sequencer
