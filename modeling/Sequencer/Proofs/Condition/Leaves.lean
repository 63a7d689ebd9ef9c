import Sequencer.Condition.Table
import Sequencer.Proofs.Control.Tree
import Sequencer.Proofs.Expr.Simplify

set_option autoImplicit false

/-!
# Leaves of conditions

Putting the conditions of a block together from those of its body adds no leaves but tests of the state and of the end
of a transaction, and it succeeds if all leaves can be measured.
-/

namespace Sequencer

open Control

namespace Checked

/-- All that the step gives is as in `Q`, and if `p` then it gives something. -/
structure Meets {α : Type} (p : Prop) (x : Checked α) (Q : α → Prop) : Prop where
  result : ∀ a, x = .ok a → Q a
  succeeds : p → ∃ a, x = .ok a

namespace Meets

variable {α β : Type} {p : Prop} {x : Checked α} {Q R : α → Prop}

theorem ok {a : α} (h : x = .ok a) (ha : Q a) : Meets p x Q where
  result b hb := by
    cases h.symm.trans hb
    exact ha
  succeeds _ := ⟨a, h⟩

theorem mono (h : Meets p x Q) (hQ : ∀ a, Q a → R a) : Meets p x R := ⟨fun a ha => hQ a (h.result a ha), h.succeeds⟩

theorem bind {f : α → Checked β} {S : β → Prop} (hx : Meets p x Q) (hf : ∀ a, Q a → Meets p (f a) S) :
    Meets p (x >>= f) S where
  result b hb := by
    obtain ⟨a, ha, hb⟩ := bind_eq_ok.1 hb
    exact (hf a (hx.result a ha)).result b hb
  succeeds hp := by
    obtain ⟨a, ha⟩ := hx.succeeds hp
    obtain ⟨b, hb⟩ := (hf a (hx.result a ha)).succeeds hp
    exact ⟨b, bind_eq_ok.2 ⟨a, ha, hb⟩⟩

theorem mapM {f : α → Checked β} {S : β → Prop} {as : List α} (hf : ∀ a ∈ as, Meets p (f a) S) :
    Meets p (as.mapM f) fun bs => ∀ b ∈ bs, S b := by
  induction as with
  | nil => exact .ok rfl (by simp)
  | cons a as ih =>
    obtain ⟨ha, has⟩ := List.forall_mem_cons.1 hf
    rw [List.mapM_cons]
    exact ha.bind fun b hb => (ih has).bind fun bs hbs => .ok rfl (List.forall_mem_cons.2 ⟨hb, hbs⟩)

theorem foldlM {f : β → α → Checked β} {S : β → Prop} {as : List α} (hf : ∀ b, S b → ∀ a ∈ as, Meets p (f b a) S)
    {b : β} (hb : S b) : Meets p (as.foldlM f b) S := by
  induction as generalizing b with
  | nil => exact .ok rfl hb
  | cons a as ih =>
    rw [List.foldlM_cons]
    exact (hf b hb a List.mem_cons_self).bind fun c hc =>
      ih (fun b hb a ha => hf b hb a (List.mem_cons_of_mem _ ha)) hc

end Meets

end Checked

open Checked

/-- What truth values have, and what if `p` only leaves have that can be measured. -/
structure Expr.LeafRule (p : Prop) (P : Expr → Prop) : Prop where
  bool : ∀ b, P (.bool b)
  measurable : p → ∀ x, P x → x.Measurable

section Folding

variable {p : Prop} {P : Expr → Prop} (h : Expr.LeafRule p P)

include h

theorem Expr.LeafRule.measurable_of_leaves (hp : p) {e : Expr} (he : e.LeavesSatisfy P) : e.Measurable :=
  Expr.LeavesSatisfy.measurable fun x hx => h.measurable hp x (he x hx)

theorem Expr.meets_and {a b : Expr} (ha : a.LeavesSatisfy P) (hb : b.LeavesSatisfy P) :
    Meets p (a.and b) (LeavesSatisfy P) where
  result _ hc := .and h.bool ha hb hc
  succeeds hp := and_succeeds (h.measurable_of_leaves hp ha) (h.measurable_of_leaves hp hb)

theorem Expr.meets_or {a b : Expr} (ha : a.LeavesSatisfy P) (hb : b.LeavesSatisfy P) :
    Meets p (a.or b) (LeavesSatisfy P) where
  result _ hc := .or h.bool ha hb hc
  succeeds hp := or_succeeds (h.measurable_of_leaves hp ha) (h.measurable_of_leaves hp hb)

theorem Expr.meets_negate {e : Expr} (he : e.LeavesSatisfy P) : Meets p e.negate (LeavesSatisfy P) where
  result _ hc := he.negate h.bool hc
  succeeds hp := negate_succeeds (h.measurable_of_leaves hp he)

/-- Every leaf of a condition has a property. -/
def Cond.LeavesSatisfy (P : Expr → Prop) (c : Cond) : Prop := ∀ e ∈ c, e.LeavesSatisfy P

omit h in
theorem Cond.leavesSatisfy_none : Cond.LeavesSatisfy P none := fun _ he => absurd he (by simp)

omit h in
theorem Cond.leavesSatisfy_some {e : Expr} (he : e.LeavesSatisfy P) : Cond.LeavesSatisfy P (some e) := by
  intro e' he'
  cases he'
  exact he

theorem Cond.meets_and {a b : Cond} (ha : a.LeavesSatisfy P) (hb : b.LeavesSatisfy P) :
    Meets p (Cond.and a b) (Cond.LeavesSatisfy P) := by
  cases a with
  | none => exact .ok rfl hb
  | some x =>
    cases b with
    | none => exact .ok rfl ha
    | some y => exact (Expr.meets_and h (ha x rfl) (hb y rfl)).bind fun z hz => .ok rfl (Cond.leavesSatisfy_some hz)

theorem Cond.meets_or {a b : Cond} (ha : a.LeavesSatisfy P) (hb : b.LeavesSatisfy P) :
    Meets p (Cond.or a b) (Cond.LeavesSatisfy P) := by
  cases a with
  | none => exact .ok rfl Cond.leavesSatisfy_none
  | some x =>
    cases b with
    | none => exact .ok rfl Cond.leavesSatisfy_none
    | some y => exact (Expr.meets_or h (ha x rfl) (hb y rfl)).bind fun z hz => .ok rfl (Cond.leavesSatisfy_some hz)

theorem Cond.meets_all {cs : List Cond} (hcs : ∀ c ∈ cs, Cond.LeavesSatisfy P c) :
    Meets p (Cond.all cs) (Cond.LeavesSatisfy P) :=
  .foldlM (fun _ hb c hc => Cond.meets_and h hb (hcs c hc)) Cond.leavesSatisfy_none

theorem Expr.meets_any {es : List Expr} (hes : ∀ e ∈ es, e.LeavesSatisfy P) :
    Meets p (Expr.any es) (Expr.LeavesSatisfy P) := by
  cases es with
  | nil => exact .ok rfl (.bool h.bool false)
  | cons e es =>
    obtain ⟨he, hes⟩ := List.forall_mem_cons.1 hes
    exact .foldlM (fun _ ha b hb => Expr.meets_or h ha (hes b hb)) he

theorem StateSpace.meets_narrow {sp : StateSpace} (hreg : P sp.register) (hlit : ∀ k, P (sp.literal k))
    (ids parent : List Nat) : Meets p (sp.narrow ids parent) (Cond.LeavesSatisfy P) := by
  rw [narrow]
  split
  · exact .ok rfl Cond.leavesSatisfy_none
  · rw [isIn]
    split
    · exact .ok rfl Cond.leavesSatisfy_none
    · refine (Expr.meets_any h ?_).bind fun e he => .ok rfl (Cond.leavesSatisfy_some he)
      intro e he
      obtain ⟨k, _, rfl⟩ := List.mem_map.1 he
      refine .bin .eq ?_ ?_
      · exact fun x hx => List.mem_singleton.1 hx ▸ hreg
      · exact fun x hx => List.mem_singleton.1 hx ▸ hlit k

namespace Timing

/-- Every leaf of the two conditions has a property. -/
structure LeavesSatisfy (P : Expr → Prop) (t : Timing) : Prop where
  cycle : Cond.LeavesSatisfy P t.cycle
  exit : Cond.LeavesSatisfy P t.exit

omit h in
theorem leavesSatisfy_always : always.LeavesSatisfy P := ⟨Cond.leavesSatisfy_none, Cond.leavesSatisfy_none⟩

omit h in
theorem LeavesSatisfy.mono {Q : Expr → Prop} {t : Timing} (ht : t.LeavesSatisfy P) (hPQ : ∀ x, P x → Q x) :
    t.LeavesSatisfy Q :=
  ⟨fun e he x hx => hPQ x (ht.cycle e he x hx), fun e he x hx => hPQ x (ht.exit e he x hx)⟩

theorem meets_all {ts : List Timing} (hts : ∀ t ∈ ts, t.LeavesSatisfy P) : Meets p (all ts) (LeavesSatisfy P) := by
  have hmap : ∀ part : Timing → Cond, (∀ t ∈ ts, Cond.LeavesSatisfy P (part t)) →
      Meets p (Cond.all (ts.map part)) (Cond.LeavesSatisfy P) := by
    intro part hpart
    refine Cond.meets_all h fun c hc => ?_
    obtain ⟨t, ht, rfl⟩ := List.mem_map.1 hc
    exact hpart t ht
  exact (hmap cycle fun t ht => (hts t ht).cycle).bind fun c hc =>
    (hmap exit fun t ht => (hts t ht).exit).bind fun e he => .ok rfl ⟨hc, he⟩

theorem meets_skipUnless {guard cond : Cond} (hguard : guard.LeavesSatisfy P) (hcond : cond.LeavesSatisfy P) :
    Meets p (skipUnless guard cond) (Cond.LeavesSatisfy P) := by
  cases cond with
  | none =>
    cases guard with
    | none => exact .ok rfl Cond.leavesSatisfy_none
    | some g => exact .ok rfl Cond.leavesSatisfy_none
  | some c =>
    cases guard with
    | none => exact .ok rfl hcond
    | some g =>
      exact (Expr.meets_negate h (hguard g rfl)).bind fun n hn =>
        (Expr.meets_or h hn (hcond c rfl)).bind fun e he => .ok rfl (Cond.leavesSatisfy_some he)

/-- The conditions of a block have the leaves of those of its body, of its guard and of its exit condition, and the test
for the end of a transaction. -/
theorem meets_wrap {b : Block} {body : Timing} (hb : ∀ e ∈ (Stmt.block b).exprs, e.LeavesSatisfy P)
    (hlast : ∀ q, P (.flag (Name.last q))) (hbody : body.LeavesSatisfy P) : Meets p (wrap b body) (LeavesSatisfy P) := by
  have hguard : Cond.LeavesSatisfy P b.guard := by
    intro e he
    refine hb e ?_
    rw [Stmt.exprs]
    split
    · exact List.mem_append_right _ (Option.mem_toList.2 he)
    · exact Option.mem_toList.2 he
  rw [wrap]
  split
  · exact .ok rfl hbody
  · exact .ok rfl hbody
  · exact (meets_skipUnless h hguard hbody.cycle).bind fun c hc =>
      (meets_skipUnless h hguard hbody.exit).bind fun e he => .ok rfl ⟨hc, he⟩
  · rename_i exit hkind
    have hexit : Cond.LeavesSatisfy P exit := by
      intro e he
      refine hb e ?_
      rw [Stmt.exprs, hkind]
      exact List.mem_append_left _ (Option.mem_toList.2 he)
    exact (meets_skipUnless h hguard hbody.cycle).bind fun c hc =>
      (Cond.meets_and h hbody.exit hexit).bind fun x hx =>
        (meets_skipUnless h hguard hx).bind fun e he => .ok rfl ⟨hc, he⟩
  · exact (Cond.meets_and h hguard hbody.cycle).bind fun c hc =>
      (Cond.meets_and h hguard hbody.exit).bind fun e he => .ok rfl ⟨hc, he⟩
  · rename_i q hkind
    have hflag : Cond.LeavesSatisfy P (some (.flag (Name.last q))) :=
      Cond.leavesSatisfy_some fun x hx => List.mem_singleton.1 hx ▸ hlast q
    exact (Cond.meets_and h hguard hbody.cycle).bind fun c hc =>
      (Cond.meets_and h hbody.exit hflag).bind fun x hx =>
        (Cond.meets_and h hguard hx).bind fun e he => .ok rfl ⟨hc, he⟩

end Timing

namespace ConditionTable

theorem meets_mutexTiming {d : Draft} {seg : Segment}
    (hrefs : ∀ c ∈ seg.children, ∃ t, d.refs.get c = .ok t ∧ t.LeavesSatisfy P) :
    Meets p (mutexTiming d seg) (Timing.LeavesSatisfy P) := by
  have hts : Meets p (seg.children.mapM d.refs.get) fun ts => ∀ t ∈ ts, Timing.LeavesSatisfy P t := by
    refine .mapM fun c hc => ?_
    obtain ⟨t, ht, hleaves⟩ := hrefs c hc
    exact .ok ht hleaves
  exact hts.bind fun ts hts => Timing.meets_all h hts

theorem meets_seqTiming {inp : Input} {d : Draft} {seg : Segment} (hreg : P inp.space.register)
    (hlit : ∀ k, P (inp.space.literal k)) (hsegs : ∀ c ∈ seg.children, ∃ child, inp.schedule.segment c = .ok child)
    (hrefs : ∀ c ∈ seg.children, ∃ t, d.refs.get c = .ok t ∧ t.LeavesSatisfy P) :
    Meets p (seqTiming inp d seg) (Timing.LeavesSatisfy P) := by
  have hguarded : ∀ c ∈ seg.children, ∀ part : Timing → Cond,
      (∀ t : Timing, t.LeavesSatisfy P → Cond.LeavesSatisfy P (part t)) → Meets p (do
        let child ← inp.schedule.segment c
        Cond.and (← inp.space.narrow child.states seg.states) (part (← d.refs.get c))) (Cond.LeavesSatisfy P) := by
    intro c hc part hpart
    obtain ⟨child, hchild⟩ := hsegs c hc
    obtain ⟨t, ht, hleaves⟩ := hrefs c hc
    rw [hchild, ok_bind, ht]
    exact (StateSpace.meets_narrow h hreg hlit _ _).bind fun test htest => Cond.meets_and h htest (hpart t hleaves)
  rw [seqTiming]
  cases hlast : seg.children.getLast? with
  | none => exact .ok rfl Timing.leavesSatisfy_always
  | some last =>
    have hmem : last ∈ seg.children := List.mem_of_getLast? hlast
    refine (Meets.mapM fun c hc => hguarded c hc Timing.cycle fun t ht => ht.cycle).bind fun cycles hcycles => ?_
    have hexit := hguarded last hmem Timing.exit fun t ht => ht.exit
    cases cycles with
    | nil => exact hexit.bind fun exit he => .ok rfl ⟨Cond.leavesSatisfy_none, he⟩
    | cons c cs =>
      obtain ⟨hc, hcs⟩ := List.forall_mem_cons.1 hcycles
      exact (Meets.foldlM (fun _ ha b hb => Cond.meets_or h ha (hcs b hb)) hc).bind fun cycle hcycle =>
        hexit.bind fun exit he => .ok rfl ⟨hcycle, he⟩

end ConditionTable

end Folding

end Sequencer
