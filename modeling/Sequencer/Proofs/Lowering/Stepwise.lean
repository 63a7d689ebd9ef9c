import Sequencer.Lowering.Walk

set_option autoImplicit false

/-!
# Properties of the walk over a schedule

The walk is put together from a few steps. A property that these have, and that sequencing keeps, is one of the walk.
-/

namespace Sequencer.Lowering

open Control

/-- A property that sequencing keeps, and that reading and looking up names have. -/
structure Lower.Sequenced (P : {α : Type} → Lower α → Prop) : Prop where
  pure {α : Type} (a : α) : P (Pure.pure a : Lower α)
  bind {α β : Type} {x : Lower α} {f : α → Lower β} : P x → (∀ a, P (f a)) → P (x >>= f)
  check {α : Type} (x : Checked α) : P (Lowering.check x)
  read_bind {β : Type} {f : Context → Lower β} : (∀ ctx, P (f ctx)) → P (read >>= f)
  named (name : String) : P (Lowering.named name)

namespace Lower.Sequenced

variable {P : {α : Type} → Lower α → Prop} (hP : Sequenced P)

include hP

theorem mapM {α β : Type} {f : α → Lower β} (hf : ∀ a, P (f a)) (as : List α) : P (as.mapM f) := by
  induction as with
  | nil =>
    rw [List.mapM_nil]
    exact hP.pure _
  | cons a as ih =>
    rw [List.mapM_cons]
    exact hP.bind (hf a) fun b => hP.bind ih fun bs => hP.pure _

theorem stmt (i : Nat) : P (stmt i) := hP.read_bind fun _ => hP.check _

theorem block? (i : Nat) : P (block? i) := hP.read_bind fun _ => hP.check _

theorem kind? (i : Nat) : P (kind? i) := hP.read_bind fun _ => hP.check _

theorem segment (i : Nat) : P (segment i) := hP.read_bind fun _ => hP.check _

theorem timing (i : Nat) : P (timing i) := hP.read_bind fun _ => hP.check _

theorem maxState : P maxState := hP.read_bind fun _ => hP.pure _

theorem blockOf (seg : Segment) : P (blockOf seg) := by
  rw [Lowering.blockOf]
  split
  · exact hP.pure _
  · exact hP.block? _

theorem narrow (parent : Option (List Nat)) (states : List Nat) : P (narrow parent states) := by
  cases parent with
  | none => exact hP.pure _
  | some p => exact hP.read_bind fun _ => hP.check _

theorem enterRegisters (kind : Option BlockKind) : P (enterRegisters kind) := by
  unfold Lowering.enterRegisters
  split
  · exact hP.pure _
  · exact hP.read_bind fun _ => hP.bind (hP.mapM (fun e => hP.bind (hP.check _) fun _ => hP.pure _) _) fun _ => hP.pure _

theorem enterInputs (b : Option Block) : P (enterInputs b) := by
  unfold Lowering.enterInputs
  dsimp only
  split
  · exact hP.pure _
  · split
    · exact hP.read_bind fun _ => hP.pure _
    · exact hP.bind (hP.named _) fun _ => hP.pure _
    · exact hP.bind (hP.named _) fun _ => hP.pure _
    · exact hP.pure _

end Lower.Sequenced

/-- A property that sequencing keeps, and that reading and changing the class of signals have. -/
structure Lower.Noted (P : {α : Type} → Lower α → Prop) : Prop extends Lower.Sequenced P where
  aspect_bind {β : Type} {f : Aspect → Lower β} : (∀ a, P (f a)) → P (aspect >>= f)
  setAspect (a : Aspect) : P (Lowering.setAspect a)

namespace Lower.Noted

variable {P : {α : Type} → Lower α → Prop} (hP : Noted P)

include hP

theorem enterBlock (i : Nat) : P (enterBlock i) := by
  refine hP.aspect_bind fun a => ?_
  cases a with
  | registers => exact hP.bind (hP.kind? i) fun k => hP.bind (hP.enterRegisters k) fun _ => hP.pure _
  | latches notes =>
    refine hP.read_bind fun ctx => ?_
    dsimp only
    split
    · exact hP.bind (hP.check _) fun _ => hP.bind (hP.setAspect _) fun _ => hP.pure _
    · exact hP.pure _
  | outputs =>
    refine hP.bind (hP.kind? i) fun k => ?_
    split
    · exact hP.pure _
    · exact hP.read_bind fun _ => hP.pure _
  | inputs => exact hP.bind (hP.block? i) fun b => hP.bind (hP.enterInputs b) fun _ => hP.pure _
  | transitions g =>
    refine hP.bind (hP.kind? i) fun k => hP.bind hP.maxState fun n => ?_
    split
    · exact hP.pure _
    · exact hP.pure _
  | conditions c =>
    refine hP.bind (hP.block? i) fun b => ?_
    cases b with
    | none => exact hP.pure _
    | some b => exact hP.read_bind fun _ => hP.bind (hP.setAspect _) fun _ => hP.pure _

theorem visitYield (y : Yield) : P (visitYield y) := by
  refine hP.aspect_bind fun a => ?_
  cases a with
  | outputs =>
    exact hP.read_bind fun ctx => hP.bind (hP.mapM (fun e => hP.bind (hP.check _) fun _ => hP.pure _) _) fun _ => hP.pure _
  | conditions c => exact hP.read_bind fun _ => hP.bind (hP.setAspect _) fun _ => hP.pure _
  | registers | latches | inputs | transitions => exact hP.pure _

theorem assignState (b : Comb.Block) (tr : Transition) : P (assignState b tr) := by
  refine hP.aspect_bind fun a => ?_
  cases a with
  | transitions g =>
    refine hP.read_bind fun ctx => ?_
    dsimp only
    split
    · exact hP.pure _
    · exact hP.bind (hP.setAspect _) fun _ => hP.pure _
  | registers | latches | outputs | inputs | conditions => exact hP.pure _

end Lower.Noted

/-- A property that sequencing keeps, and that the steps have of which the walk consists. -/
structure Lower.Stepwise (P : {α : Type} → Lower α → Prop) : Prop extends Lower.Sequenced P where
  aspect_bind {β : Type} {f : Aspect → Lower β} : (∀ a, P (f a)) → P (aspect >>= f)
  currentCycle : P Lowering.currentCycle
  mark (c : Cond) : P (Lowering.mark c)
  markTree (b : Comb.Block) : P (Lowering.markTree b)
  cycle {α β : Type} {x : Lower α} {f : α → Lower β} (c : Cond) : P x → (∀ a, P (f a)) →
    P (do pushCycle c; let a ← x; popCycle; f a)
  enterBlock (i : Nat) : P (Lowering.enterBlock i)
  visitYield (y : Yield) : P (Lowering.visitYield y)
  assignState (b : Comb.Block) (tr : Transition) : P (Lowering.assignState b tr)

namespace Lower.Stepwise

variable {P : {α : Type} → Lower α → Prop} (hP : Stepwise P)

include hP

theorem settled (b : Comb.Block) : P (settled b) := hP.aspect_bind fun _ => hP.pure _

theorem visitUpdate (r : String) (v : Expr) : P (visitUpdate r v) := by
  refine hP.aspect_bind fun a => ?_
  cases a with
  | registers =>
    refine hP.read_bind fun ctx => hP.bind (hP.check _) fun w => ?_
    cases w with
    | none => exact hP.check _
    | some w =>
      exact hP.bind (hP.bind hP.currentCycle fun c => hP.bind (hP.mark c) fun _ => hP.pure c) fun _ => hP.pure _
  | latches | outputs | inputs | transitions | conditions => exact hP.pure _

theorem visitAssign (x : String) (v : Expr) : P (visitAssign x v) := by
  refine hP.aspect_bind fun a => ?_
  cases a with
  | latches notes =>
    refine hP.read_bind fun ctx => hP.bind (hP.check _) fun w => ?_
    cases w with
    | none => exact hP.check _
    | some w => exact hP.pure _
  | registers | outputs | inputs | transitions | conditions => exact hP.pure _

theorem visitBlock (i : Nat) : P (visitBlock i) :=
  hP.bind (hP.block? i) fun _ => hP.bind (hP.enterBlock i) fun _ => hP.pure _

theorem visit (i : Nat) : P (visit i) := by
  refine hP.bind (hP.stmt i) fun s => ?_
  cases s with
  | block b => exact hP.bind (hP.visitBlock i) fun _ => hP.pure _
  | yield y => exact hP.visitYield y
  | update r v => exact hP.visitUpdate r v
  | assign x v => exact hP.visitAssign x v

mutual
theorem lowerOutline : (o : Outline) → P (lowerOutline o)
  | .node i os => by
    refine hP.bind (hP.stmt i) fun s => ?_
    cases s with
    | block b =>
      exact hP.bind (hP.visitBlock i) fun b => hP.bind (lowerOutlines os) fun ss => hP.bind (hP.settled _) fun _ =>
        hP.pure _
    | yield y => exact hP.visit i
    | update r v => exact hP.visit i
    | assign x v => exact hP.visit i
theorem lowerOutlines : (os : List Outline) → P (lowerOutlines os)
  | [] => hP.pure _
  | o :: os => hP.bind (lowerOutline o) fun _ => hP.bind (lowerOutlines os) fun _ => hP.pure _
end

theorem freeStmts (stmts : List Nat) (guard c : Cond) : P (freeStmts stmts guard c) :=
  hP.cycle c (hP.read_bind fun _ => hP.lowerOutlines _) fun _ => hP.settled _

theorem stateCopy (node : Option Nat) (tr : Transition) : P (stateCopy node tr) := by
  have hentry : ∀ entry, P (Lowering.assignState (.of none entry) tr >>= Lowering.settled) :=
    fun _ => hP.bind (hP.assignState _ _) fun _ => hP.settled _
  cases node with
  | none => exact hP.bind (hP.pure _) hentry
  | some n => exact hP.bind (hP.visitBlock n) fun _ => hP.bind (hP.settled _) fun _ => hP.bind (hP.pure _) hentry

theorem copiesFor (node : Option Nat) : (trs : List Transition) → P (copiesFor node trs)
  | [] => hP.pure _
  | tr :: trs => hP.bind (hP.stateCopy node tr) fun _ => hP.bind (copiesFor node trs) fun _ => hP.pure _

theorem changesState (seg : Segment) (parent : List Nat) : P (changesState seg parent) := by
  refine hP.bind hP.maxState fun n => ?_
  split
  · exact hP.pure _
  · split
    · exact hP.pure _
    · exact hP.bind (hP.blockOf seg) fun _ => hP.pure _

theorem transitionsFrom (source : Nat) : (steps i : Nat) → P (transitionsFrom source steps i)
  | 0, _ => hP.pure _
  | steps + 1, i => by
    refine hP.bind (hP.segment i) fun seg => ?_
    cases seg.parent with
    | none => exact hP.pure _
    | some p =>
      refine hP.bind (hP.segment p) fun parent => ?_
      split
      · exact transitionsFrom source steps p
      · refine hP.bind (hP.timing i) fun t => ?_
        dsimp only
        split
        · exact hP.bind (hP.segment _) fun _ => hP.pure _
        · exact hP.bind (hP.blockOf parent) fun b => hP.bind (transitionsFrom source steps p) fun _ => hP.pure _

theorem transitions (i : Nat) : P (transitions i) := by
  refine hP.bind (hP.segment i) fun seg => ?_
  cases seg.firstState? with
  | none => exact hP.pure _
  | some source => exact hP.read_bind fun _ => hP.transitionsFrom _ _ _

theorem stateCopies (i : Nat) (seg : Segment) (parent : Option (List Nat)) : P (stateCopies i seg parent) := by
  cases parent with
  | none => exact hP.pure _
  | some p =>
    refine hP.bind (hP.changesState seg p) fun b => ?_
    split
    · exact hP.bind (hP.transitions i) fun _ => hP.copiesFor _ _
    · exact hP.pure _

theorem lowerProlog (i : Nat) (seg : Segment) (parent : Option (List Nat)) : P (lowerProlog i seg parent) := by
  unfold Lowering.lowerProlog
  split
  · exact hP.pure _
  · exact hP.bind (hP.narrow _ _) fun _ => hP.bind (hP.timing i) fun _ => hP.bind (hP.freeStmts _ _ _) fun _ => hP.pure _

theorem lowerEpilog (i : Nat) (seg : Segment) (parent : Option (List Nat)) : P (lowerEpilog i seg parent) := by
  unfold Lowering.lowerEpilog
  split
  · exact hP.pure _
  · exact hP.bind (hP.timing i) fun _ => hP.bind (hP.narrow _ _) fun _ => hP.bind (hP.check _) fun _ =>
      hP.bind (hP.freeStmts _ _ _) fun _ => hP.pure _

theorem withCopies (seg : Segment) (parent : Option (List Nat)) (body : Comb.Block) (copies : List Comb.Block) :
    P (withCopies seg parent body copies) := by
  refine hP.bind (hP.blockOf seg) fun b => ?_
  dsimp only
  split
  · exact hP.bind (hP.settled _) fun _ => hP.pure _
  · refine hP.bind (hP.settled _) fun _ => ?_
    split
    · exact hP.pure _
    · exact hP.bind (hP.narrow _ _) fun _ => hP.pure _

mutual
theorem lowerSegment (parent : Option (List Nat)) : (o : Outline) → P (lowerSegment parent o)
  | .node i os => by
    refine hP.bind (hP.segment i) fun seg => hP.bind (hP.narrow _ _) fun guard =>
      hP.bind (hP.lowerProlog i seg parent) fun before => ?_
    have hrest : ∀ body, P (do
        let copies ← Lowering.stateCopies i seg parent
        let main ← Lowering.withCopies seg parent body copies
        let after ← Lowering.lowerEpilog i seg parent
        return before ++ main ++ after) :=
      fun body => hP.bind (hP.stateCopies i seg parent) fun _ => hP.bind (hP.withCopies _ _ _ _) fun _ =>
        hP.bind (hP.lowerEpilog i seg parent) fun _ => hP.pure _
    have hinner : ∀ head : Comb.Block, P (do
        let guard ← Lowering.check (Cond.and guard head.guard)
        pushCycle (← Lowering.timing i).cycle
        let inner ← Lowering.lowerSegments seg.states os
        popCycle
        let body ← Pure.pure { head.append inner with guard := guard }
        let copies ← Lowering.stateCopies i seg parent
        let main ← Lowering.withCopies seg parent body copies
        let after ← Lowering.lowerEpilog i seg parent
        return before ++ main ++ after) :=
      fun head => hP.bind (hP.check _) fun _ => hP.bind (hP.timing i) fun t =>
        hP.cycle t.cycle (lowerSegments _ os) fun _ => hP.bind (hP.pure _) hrest
    cases seg.kind with
    | leaf =>
      refine hP.bind (hP.timing i) fun t => ?_
      dsimp only
      cases t.cycle with
      | some c => exact hP.bind (hP.pure _) fun _ => hP.bind (hP.freeStmts _ _ _) hrest
      | none => exact hP.bind hP.currentCycle fun _ => hP.bind (hP.freeStmts _ _ _) hrest
    | seq =>
      dsimp only
      cases seg.block with
      | some n => exact hP.bind (hP.visitBlock n) hinner
      | none => exact hP.bind (hP.pure _) hinner
    | mutex =>
      dsimp only
      cases seg.block with
      | some n => exact hP.bind (hP.visitBlock n) hinner
      | none => exact hP.bind (hP.pure _) hinner
theorem lowerSegments (parent : List Nat) : (os : List Outline) → P (lowerSegments parent os)
  | [] => hP.pure _
  | o :: os => hP.bind (lowerSegment (some parent) o) fun _ => hP.bind (lowerSegments parent os) fun _ => hP.pure _
end

theorem lowerModule : P lowerModule :=
  hP.read_bind fun _ => hP.bind (hP.lowerSegment _ _) fun _ => hP.bind (hP.settled _) fun _ =>
    hP.bind (hP.markTree _) fun _ => hP.pure _

end Lower.Stepwise

end Sequencer.Lowering
