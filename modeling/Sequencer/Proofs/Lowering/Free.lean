import Sequencer.Proofs.Comb.Defaults
import Sequencer.Proofs.Condition.StateSpace
import Sequencer.Proofs.Lowering.Walk
import Sequencer.Proofs.Schedule.Staged

set_option autoImplicit false

/-!
# Free statements

Statements that do not block drive no output, acknowledge no input and do not change the state.
-/

namespace Sequencer

namespace Lowering

open Control Lower Comb

/-- Nothing is assigned on entry to a block inside the module for these classes of signals. -/
def Aspect.Silent (a : Aspect) : Prop := a = .outputs ∨ ∃ g, a = .transitions g

/-- Free statements do nothing for these classes of signals. -/
def Aspect.Idles (a : Aspect) : Prop := a.Silent ∨ a = .inputs

theorem Aspect.eq_outputs_of_label {a : Aspect} (h : a.label = outputs.label) : a = .outputs := by
  revert h
  cases a with
  | outputs => exact fun _ => rfl
  | registers | latches | inputs | transitions | conditions => exact fun h => absurd h (by simp only [label]; decide)

theorem Aspect.eq_transitions_of_label {a : Aspect} {g : TransitionGraph} (h : a.label = (transitions g).label) :
    ∃ g', a = .transitions g' := by
  revert h
  cases a with
  | transitions g' => exact fun _ => ⟨g', rfl⟩
  | registers | latches | inputs | outputs | conditions => exact fun h => absurd h (by simp only [label]; decide)

theorem Aspect.eq_inputs_of_label {a : Aspect} (h : a.label = inputs.label) : a = .inputs := by
  revert h
  cases a with
  | inputs => exact fun _ => rfl
  | registers | latches | outputs | transitions | conditions => exact fun h => absurd h (by simp only [label]; decide)

theorem Aspect.Silent.of_label {a a' : Aspect} (h : a.Silent) (hlabel : a'.label = a.label) : a'.Silent := by
  rcases h with rfl | ⟨g, rfl⟩
  · exact .inl (eq_outputs_of_label hlabel)
  · exact .inr (eq_transitions_of_label hlabel)

theorem Aspect.Idles.of_label {a a' : Aspect} (h : a.Idles) (hlabel : a'.label = a.label) : a'.Idles := by
  rcases h with h | rfl
  · exact .inl (h.of_label hlabel)
  · exact .inr (eq_inputs_of_label hlabel)

theorem Aspect.Idles.of_frame {s s' : Session} (h : s.aspect.Idles) {t : ConditionTable} (hframe : Session.Frame t s s') : s'.aspect.Idles :=
  h.of_label hframe.label

/-- No expression that lowering for such a class of signals takes over reads a signal of `T`. -/
structure Quiet (ctx : Context) (T : List String) : Prop where
  exprs : ∀ n ∈ (ctx.module.outline ctx.module.root).preorder, ∀ st, ctx.module.stmt n = .ok st →
    ∀ e ∈ st.exprs, e.Avoids T
  state : Name.held Name.state ∉ T
  exit : ∀ i seg t, ctx.schedule.segment i = .ok seg → seg.kind ≠ .leaf → ctx.table.timing i = .ok t →
    ∀ e, t.exit = some e → e.Avoids T

namespace Quiet

variable {ctx : Context} {T : List String} (hq : Quiet ctx T)

include hq

theorem guard {n : Nat} (hn : n ∈ (ctx.module.outline ctx.module.root).preorder) {b : Control.Block}
    (hb : ctx.module.stmt n = .ok (.block b)) : ∀ e, b.guard = some e → e.Avoids T := by
  intro e he
  refine hq.exprs n hn _ hb e ?_
  rw [Control.Stmt.exprs]
  split
  · simp [he]
  · simp [he]

theorem narrow {ids parent : List Nat} {c : Cond} (h : ctx.table.space.narrow ids parent = .ok c) :
    ∀ e, c = some e → e.Avoids T := by
  rintro e rfl
  refine Expr.avoids_iff.2 fun x hx => ?_
  rcases StateSpace.leaves_narrow h x hx with rfl | ⟨l, rfl⟩
  · intro n hn
    rw [List.mem_singleton.1 hn]
    exact hq.state
  · exact Expr.avoids_lit T l

omit hq in
theorem and {a b c : Cond} (ha : ∀ e, a = some e → e.Avoids T) (hb : ∀ e, b = some e → e.Avoids T)
    (h : Cond.and a b = .ok c) : ∀ e, c = some e → e.Avoids T := by
  rintro e rfl
  cases a with
  | none =>
    cases h
    exact hb e rfl
  | some x =>
    cases b with
    | none =>
      cases h
      exact ha e rfl
    | some y =>
      obtain ⟨z, hz, h⟩ := Checked.bind_eq_ok.1 h
      cases h
      have hbool : ∀ b, (Expr.bool b).Avoids T := fun b => Expr.avoids_lit T _
      exact Expr.avoids_iff.2 (.and hbool (Expr.avoids_iff.1 (ha x rfl)) (Expr.avoids_iff.1 (hb y rfl)) hz)

end Quiet

variable {ctx : Context} {T : List String} {s s' : Session}

theorem runs_enterBlock_silent (hs : s.aspect.Silent) {i : Nat} {b : Control.Block}
    (hb : ctx.module.stmt i = .ok (.block b)) (hkind : b.kind ≠ .module) {ss : List Comb.Stmt}
    (h : Runs ctx (enterBlock i) s ss s') : ss = [] := by
  have h₁ := runs_aspect_bind.1 h
  rcases hs with hout | ⟨g, htr⟩
  · rw [hout] at h₁
    have h₂ := runs_kind?_bind hb h₁
    rw [if_pos (by simpa using hkind)] at h₂
    exact (runs_pure.1 h₂).1
  · rw [htr] at h₁
    obtain ⟨n, s₃, hmax, h₃⟩ := runs_bind.1 (runs_kind?_bind hb h₁)
    rw [if_pos (.inl (by simpa using hkind))] at h₃
    exact (runs_pure.1 h₃).1

theorem runs_enterBlock_idles (hs : s.aspect.Idles) {i : Nat} {b : Control.Block}
    (hb : ctx.module.stmt i = .ok (.block b)) (hkind : b.kind.suspends = false) {ss : List Comb.Stmt}
    (h : Runs ctx (enterBlock i) s ss s') : ss = [] := by
  rcases hs with hs | hs
  · exact runs_enterBlock_silent hs hb (fun hk => by rw [hk] at hkind; cases hkind) h
  · have h₁ := runs_aspect_bind.1 h
    rw [hs] at h₁
    obtain ⟨blk, s₂, hblk, h₂⟩ := runs_bind.1 h₁
    have hblk' := (runs_block?.1 hblk).1
    rw [Module.block?, hb] at hblk'
    cases hblk'
    obtain ⟨as, s₃, has, h₃⟩ := runs_bind.1 h₂
    obtain ⟨k, g, ss', id⟩ := b
    cases k with
    | module | interface p | interfaceLoop p => cases hkind
    | conditional | container | loop exit =>
      rw [(runs_pure.1 h₃).1, (runs_pure.1 has).1]
      rfl

theorem runs_visitUpdate_idles (hs : s.aspect.Idles) {r : String} {v : Expr} {ss : List Comb.Stmt}
    (h : Runs ctx (visitUpdate r v) s ss s') : ss = [] := by
  have h₁ := runs_aspect_bind.1 h
  rcases hs with (hs | ⟨g, hs⟩) | hs
  all_goals
    rw [hs] at h₁
    exact (runs_pure.1 h₁).1

theorem runs_visitAssign_idles (hs : s.aspect.Idles) {x : String} {v : Expr} {ss : List Comb.Stmt}
    (h : Runs ctx (visitAssign x v) s ss s') : ss = [] := by
  have h₁ := runs_aspect_bind.1 h
  rcases hs with (hs | ⟨g, hs⟩) | hs
  all_goals
    rw [hs] at h₁
    exact (runs_pure.1 h₁).1

theorem Quiet.runs_narrow (hq : Quiet ctx T) {parent : Option (List Nat)} {states : List Nat} {guard : Cond}
    (h : Runs ctx (Lowering.narrow parent states) s guard s') : ∀ e, guard = some e → e.Avoids T := by
  cases parent with
  | none =>
    rw [(runs_pure.1 h).1]
    exact fun e he => by cases he
  | some p => exact hq.narrow (Lowering.runs_narrow.1 h).1

/-- Free of assignments, and no guard reads a signal of `T`. -/
def Idle (T : List String) (ss : List Comb.Stmt) : Prop := Comb.Stmt.SatisfiesAll (fun _ => False) (Expr.Avoids T) ss

theorem Idle.finalAll_eq_none {V : Type} (I : Interpretation V) (ρ : Valuation V) {ss : List Comb.Stmt} (h : Idle T ss)
    (t : String) : Comb.Stmt.finalAll I ρ t ss = none :=
  Comb.Stmt.SatisfiesAll.finalAll_eq_none I ρ h fun _ ha => ha.elim

theorem Idle.satisfies {P : Assign → Prop} {ss : List Comb.Stmt} (h : Idle T ss) :
    Comb.Stmt.SatisfiesAll P (Expr.Avoids T) ss :=
  Comb.Stmt.SatisfiesAll.mono (fun _ ha => ha.elim) (fun _ he => he) ss h

mutual
theorem idle_lowerOutline (hq : Quiet ctx T) : (o : Outline) →
    (∀ j ∈ o.preorder, j ∈ (ctx.module.outline ctx.module.root).preorder) → ctx.module.blocking o = .ok false →
    ∀ {s s' : Session} {ss : List Comb.Stmt}, s.aspect.Idles → Runs ctx (lowerOutline o) s ss s' → Idle T ss
  | .node i os, hin, hfree, s, s', ss, hs, h => by
    rw [Outline.preorder_eq] at hin
    rw [Module.blocking, Checked.bind_eq_ok] at hfree
    obtain ⟨st, hst, hfree⟩ := hfree
    cases st with
    | yield y => cases hfree
    | update r v =>
      obtain ⟨st', s₁, hstmt, h₁⟩ := runs_bind.1 (runs_lowerOutline_visit hst rfl h)
      obtain ⟨hst', hs₁⟩ := runs_stmt.1 hstmt
      cases hst.symm.trans hst'
      rw [runs_visitUpdate_idles (hs₁ ▸ hs) h₁]
      trivial
    | assign x v =>
      obtain ⟨st', s₁, hstmt, h₁⟩ := runs_bind.1 (runs_lowerOutline_visit hst rfl h)
      obtain ⟨hst', hs₁⟩ := runs_stmt.1 hstmt
      cases hst.symm.trans hst'
      rw [runs_visitAssign_idles (hs₁ ▸ hs) h₁]
      trivial
    | block b =>
      dsimp only at hfree
      split at hfree
      · cases hfree
      · rename_i hsuspends
        obtain ⟨stmts, inner, s₁, henter, hinner, rfl⟩ := runs_lowerOutline_block hst h
        rw [runs_enterBlock_idles hs hst (by simpa using hsuspends) henter, List.nil_append]
        have hs₁ := hs.of_frame (Framed.enterBlock i _ _ _ _ rfl henter)
        have hidle := idle_lowerOutlines hq os (fun j hj => hin j (List.mem_cons_of_mem _ hj)) hfree hs₁ hinner
        refine ⟨?_, trivial⟩
        exact updateDefaults_satisfies _ _ (Comb.Block.satisfies_of (hq.guard (hin i List.mem_cons_self) hst) hidle)
theorem idle_lowerOutlines (hq : Quiet ctx T) : (os : List Outline) →
    (∀ j ∈ os.flatMap Outline.preorder, j ∈ (ctx.module.outline ctx.module.root).preorder) →
    ctx.module.anyBlocking os = .ok false →
    ∀ {s s' : Session} {ss : List Comb.Stmt}, s.aspect.Idles → Runs ctx (lowerOutlines os) s ss s' → Idle T ss
  | [], _, _, s, s', ss, _, h => by
    rw [(runs_pure.1 h).1]
    trivial
  | o :: os, hin, hfree, s, s', ss, hs, h => by
    rw [List.flatMap_cons, List.forall_mem_append] at hin
    obtain ⟨blocks, hblocks, hfree⟩ := Checked.bind_eq_ok.1 hfree
    cases blocks with
    | true => cases hfree
    | false =>
      obtain ⟨ts, us, s₁, hts, hus, rfl⟩ := runs_lowerOutlines_cons h
      have hs₁ := hs.of_frame (Framed.lowerOutline o _ _ _ _ rfl hts)
      exact Comb.Stmt.satisfiesAll_append.2
        ⟨idle_lowerOutline hq o hin.1 hblocks hs hts, idle_lowerOutlines hq os hin.2 hfree hs₁ hus⟩
end

theorem anyBlocking_of_free {m : Module} {js : List Nat} (h : ∀ j ∈ js, m.Free j) :
    m.anyBlocking (js.map m.outline) = .ok false := by
  induction js with
  | nil => rfl
  | cons j js ih =>
    obtain ⟨hj, hjs⟩ := List.forall_mem_cons.1 h
    rw [List.map_cons, Module.anyBlocking, show m.blocking (m.outline j) = .ok false from hj]
    exact ih hjs

theorem satisfies_inlined {P : Assign → Prop} {Q : Expr → Prop} {b : Comb.Block} (h : b.Satisfies P Q) :
    Comb.Stmt.SatisfiesAll P Q (inlined b) := by
  unfold inlined
  split
  · trivial
  · split
    · exact ⟨h, trivial⟩
    · refine Comb.Stmt.satisfiesAll_append.2 ⟨Comb.Stmt.satisfiesAll_assigns.2 ?_, h.2.2⟩
      intro a ha
      obtain ⟨e, he, rfl⟩ := List.mem_map.1 ha
      exact h.2.1 e he

section Segments

variable (hq : Quiet ctx T) (hwf : ctx.module.WellFormed)

include hq hwf

theorem idle_lowerStmts {js : List Nat} (hfree : ∀ j ∈ js, ctx.module.Free j)
    (hin : ∀ j ∈ js, j ∈ (ctx.module.outline ctx.module.root).preorder) (hs : s.aspect.Idles) {ss : List Comb.Stmt}
    (h : Runs ctx (lowerOutlines (js.map ctx.module.outline)) s ss s') : Idle T ss := by
  refine idle_lowerOutlines hq _ ?_ (anyBlocking_of_free hfree) hs h
  intro x hx
  obtain ⟨o, ho, hx⟩ := List.mem_flatMap.1 hx
  obtain ⟨j, hj, rfl⟩ := List.mem_map.1 ho
  exact hwf.preorder_subset (hin j hj) x hx

theorem idle_freeStmts {js : List Nat} (hfree : ∀ j ∈ js, ctx.module.Free j)
    (hin : ∀ j ∈ js, j ∈ (ctx.module.outline ctx.module.root).preorder) {guard cycle : Cond}
    (hguard : ∀ e, guard = some e → e.Avoids T) (hs : s.aspect.Idles) {b : Comb.Block}
    (h : Runs ctx (freeStmts js guard cycle) s b s') : Idle T (inlined b) := by
  obtain ⟨lowered, s₁, hlower, rfl, _⟩ := runs_freeStmts h
  have hs₀ : ({ s with cycles := cycle :: s.cycles } : Session).aspect.Idles := hs
  have hidle := idle_lowerStmts hq hwf hfree hin hs₀ hlower
  exact satisfies_inlined (updateDefaults_satisfies _ _ (Comb.Block.satisfies_of hguard hidle))

theorem idle_lowerProlog {i : Nat} {seg : Segment} {parent : Option (List Nat)}
    (hfree : ∀ j ∈ seg.prolog, ctx.module.Free j)
    (hin : ∀ j ∈ seg.prolog, j ∈ (ctx.module.outline ctx.module.root).preorder) (hs : s.aspect.Idles)
    {ss : List Comb.Stmt} (h : Runs ctx (lowerProlog i seg parent) s ss s') : Idle T ss := by
  unfold lowerProlog at h
  split at h
  · rw [(runs_pure.1 h).1]
    trivial
  · obtain ⟨guard, s₁, hguard, h₁⟩ := runs_bind.1 h
    obtain ⟨t, s₂, htiming, h₂⟩ := runs_bind.1 h₁
    obtain ⟨b, s₃, hb, h₃⟩ := runs_bind.1 h₂
    rw [(runs_pure.1 h₃).1]
    have hs₁ := runs_narrow_session hguard
    obtain ⟨_, hs₂⟩ := runs_timing.1 htiming
    exact idle_freeStmts hq hwf hfree hin (hq.runs_narrow hguard) (by rw [hs₂, hs₁]; exact hs) hb

theorem idle_lowerEpilog {i : Nat} {seg : Segment} {parent : Option (List Nat)}
    (hseg : ctx.schedule.segment i = .ok seg) (hkind : seg.kind ≠ .leaf) (hfree : ∀ j ∈ seg.epilog, ctx.module.Free j)
    (hin : ∀ j ∈ seg.epilog, j ∈ (ctx.module.outline ctx.module.root).preorder) (hs : s.aspect.Idles)
    {ss : List Comb.Stmt} (h : Runs ctx (lowerEpilog i seg parent) s ss s') : Idle T ss := by
  unfold lowerEpilog at h
  split at h
  · rw [(runs_pure.1 h).1]
    trivial
  · obtain ⟨t, s₁, htiming, h₁⟩ := runs_bind.1 h
    obtain ⟨test, s₂, htest, h₂⟩ := runs_bind.1 h₁
    obtain ⟨guard, s₃, hguard, h₃⟩ := runs_bind.1 h₂
    obtain ⟨b, s₄, hb, h₄⟩ := runs_bind.1 h₃
    rw [(runs_pure.1 h₄).1]
    obtain ⟨ht, hs₁⟩ := runs_timing.1 htiming
    have hs₂ := runs_narrow_session htest
    obtain ⟨hand, hs₃⟩ := runs_check.1 hguard
    exact idle_freeStmts hq hwf hfree hin (Quiet.and (hq.runs_narrow htest) (hq.exit i seg t hseg hkind ht) hand)
      (by rw [hs₃, hs₂, hs₁]; exact hs) hb

end Segments

end Lowering

end Sequencer
