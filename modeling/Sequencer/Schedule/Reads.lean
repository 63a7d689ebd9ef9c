import Sequencer.Schedule.States

set_option autoImplicit false

/-!
# Register reads

A read of a register that follows an update in the same cycle sees the new value. The reads of a module are marked along
the flow of one cycle through its schedule.
-/

namespace Sequencer

open Control

/-- Makes reads of the registers in `written` see the new value. -/
def Operand.afterWrites (written : List String) (o : Operand) : Operand :=
  if o.storage = .register ∧ o.time = .held ∧ written.contains o.name then { o with time := .next } else o

namespace Module

abbrev Marking (α : Type) := StateT Module Checked α

namespace Marking

def stmt (i : Nat) : Marking Stmt := fun m => do return (← m.stmt i, m)

/-- Marks the expressions that the statement at `i` itself holds. -/
def mark (written : List String) (i : Nat) : Marking Unit := fun m => do
  if written.isEmpty then return ((), m)
  let s ← m.stmt i
  let stmts ← m.stmts.set i (s.mapExprs (Expr.mapOperands (Operand.afterWrites written)))
  return ((), { m with stmts := stmts })

mutual
/-- Marks a statement and what is nested in it. Takes the registers updated before it and gives those updated after
it. -/
def markOutline (written : List String) : Outline → Marking (List String)
  | .node i os => do
    mark written i
    match ← stmt i with
    | .update r _ => pure (r :: written)
    | .block _ => markAll written os
    | _ => pure written
/-- Marks statements that run one after the other. -/
def markAll (written : List String) : List Outline → Marking (List String)
  | [] => pure written
  | o :: os => do markAll (← markOutline written o) os
end

def markStmts (written : List String) (stmts : List Nat) : Marking (List String) := do
  let m ← get
  markAll written (stmts.map m.outline)

mutual
/-- Marks a segment. Takes the registers updated earlier in the cycle in which it is entered and gives those updated by
the end of the cycle in which it is left. -/
def visit (s : Schedule) (written : List String) : Outline → Marking (List String)
  | .node i os => do
    let seg ← s.segment i
    let written ← markStmts written seg.prolog
    match seg.block with
    | some b => mark written b
    | none => pure ()
    let out ← match seg.kind with
      | .leaf => markStmts written seg.stmts
      | .seq => visitSeq s written os
      | .mutex => if os.isEmpty then pure written else visitMutex s written os
    markStmts out seg.epilog
/-- Only the first child shares the cycle in which the segment is entered. -/
def visitSeq (s : Schedule) (written : List String) : List Outline → Marking (List String)
  | [] => pure written
  | o :: os => do
    let out ← visit s written o
    if os.isEmpty then pure out else visitSeq s [] os
def visitMutex (s : Schedule) (written : List String) : List Outline → Marking (List String)
  | [] => pure []
  | o :: os => do
    let out ← visit s written o
    let rest ← visitMutex s written os
    pure (out ++ rest)
end

end Marking

def markReads (m : Module) (s : Schedule) : Checked Module := do
  let (_, m) ← Marking.visit s [] (s.outline s.root) m
  return m

end Module

/-- A scheduled module whose segments have states, whose blocks and yields have ids and whose reads are marked. -/
structure Staged where
  module : Module
  schedule : Schedule
  maxState : Nat

def Module.stage (m : Module) (s : Schedule) : Checked Staged := do
  let n ← Numbering.run m s
  return ⟨← n.module.markReads n.schedule, n.schedule, n.maxState⟩

end Sequencer
