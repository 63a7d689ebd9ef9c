import Sequencer.Schedule.Basic

set_option autoImplicit false

/-!
# Plans

A plan is a schedule as a tree. Each blocking statement becomes a part of its own. Statements that do not block are
free: they join the part before them, or the part after them if there is none before.

`Plan.flatten` lays a plan out as a schedule, each part before the parts below it.
-/

namespace Sequencer

open Control

inductive Plan where
  | part (kind : SegmentKind) (block : Option Nat) (prolog stmts epilog : List Nat) (children : List Plan)
deriving Repr

namespace Plan

def leaf (stmts : List Nat) : Plan := part .leaf none [] stmts [] []

/-- Adds free statements to run before the rest of a part. -/
def prepend (free : List Nat) : Plan → Plan
  | part .leaf b p ss e cs => part .leaf b p (free ++ ss) e cs
  | part k b p ss e cs => part k b (free ++ p) ss e cs

/-- Adds a free statement to run after the rest of a part. -/
def append (free : Nat) : Plan → Plan
  | part .leaf b p ss e cs => part .leaf b p (ss ++ [free]) e cs
  | part k b p ss e cs => part k b p ss (e ++ [free]) cs

/-- Adds free statements to the epilog of a part. -/
def appendEpilog (free : List Nat) : Plan → Plan
  | part k b p ss e cs => part k b p ss (e ++ free) cs

mutual
def size : Plan → Nat
  | part _ _ _ _ _ cs => 1 + sizes cs
def sizes : List Plan → Nat
  | [] => 0
  | p :: ps => p.size + sizes ps
end

/-- The indices of parts laid out one after the other from `start` on. -/
def starts (start : Nat) : List Plan → List Nat
  | [] => []
  | p :: ps => start :: starts (start + p.size) ps

mutual
/-- The segments of a plan whose top gets the index `start`. -/
def segmentsFrom (parent : Option Nat) (start : Nat) : Plan → List Segment
  | part k b p ss e cs =>
    { kind := k, block := b, parent := parent, children := starts (start + 1) cs, states := [], stmts := ss
      prolog := p, epilog := e } :: segmentsAllFrom (some start) (start + 1) cs
def segmentsAllFrom (parent : Option Nat) (start : Nat) : List Plan → List Segment
  | [] => []
  | p :: ps => p.segmentsFrom parent start ++ segmentsAllFrom parent (start + p.size) ps
end

def flatten (p : Plan) : Schedule := ⟨.ofList (p.segmentsFrom none 0), 0⟩

end Plan

namespace Module

def loopNeverSuspends (m : Module) (i : Nat) : Checked Unit := do .reject (.loopNeverSuspends (← m.describe i))

/-- A free statement runs within one cycle, so no loop may be nested in it. -/
def checkFree (m : Module) (i : Nat) : Checked Unit := do
  let loops ← (← m.descendants i).filterM fun s => do return ((← m.kind? s).any BlockKind.isLoop)
  match loops with
  | l :: _ => m.loopNeverSuspends l
  | [] => return ()

/-- The parts planned so far for a list of statements, and the free statements waiting for the next part. -/
structure Parts where
  done : List Plan
  free : List Nat

namespace Parts

/-- Adds a part, which the waiting free statements join. -/
def push (ps : Parts) (p : Plan) : Parts := ⟨ps.done ++ [p.prepend ps.free], []⟩

/-- Changes the last part. -/
def modifyLast (ps : Parts) (f : Plan → Plan) : Parts := { ps with done := ps.done.modify (ps.done.length - 1) f }

/-- Adds a free statement to the last part, or lets it wait if there is none. -/
def addFree (ps : Parts) (i : Nat) : Parts :=
  if ps.done.isEmpty then { ps with free := ps.free ++ [i] } else ps.modifyLast (Plan.append i)

/-- The parts of a list of statements. Free statements with no part to join form a leaf. -/
def finish (ps : Parts) : List Plan := if ps.free.isEmpty then ps.done else ps.done ++ [.leaf ps.free]

end Parts

/-- Whether the parts of a block run one after the other. -/
def segmentKind (m : Module) (b : Block) (nested : List Outline) : Checked SegmentKind :=
  match b.kind with
  | .conditional => do return if 1 < (← m.countBlocking nested) then .seq else .mutex
  | .container => return .mutex
  | _ => return .seq

mutual
def planBlock (m : Module) : Outline → Checked Plan
  | .node i os => do
    match ← m.stmt i with
    | .block b =>
      let kind ← m.segmentKind b os
      if b.kind.isLoop then
        if !(← m.anyBlocking os) then m.loopNeverSuspends i
      let children ← if b.kind = .container then m.planBranches i ⟨[], []⟩ os else m.planStmts ⟨[], []⟩ os
      return .part kind (some i) [] [] [] children
    | s => .reject (.notSchedulable (s.describe i))
/-- Plans the statements of a block other than a container. -/
def planStmts (m : Module) (ps : Parts) : List Outline → Checked (List Plan)
  | [] => return ps.finish
  | o :: os => do
    if ← m.blocking o then
      match ← m.stmt o.index with
      | .block _ => m.planStmts (ps.push (← m.planBlock o)) os
      | _ => m.planStmts (ps.push (.leaf [o.index])) os
    else
      m.checkFree o.index
      m.planStmts (ps.addFree o.index) os
/-- Plans the branches of the container at `i`. A free branch runs when the next blocking branch is entered, or else
when the last one is left. -/
def planBranches (m : Module) (i : Nat) (ps : Parts) : List Outline → Checked (List Plan)
  | [] => do
    if ps.free.isEmpty then return ps.done
    if ps.done.isEmpty then .reject (.containerNeverSuspends (← m.describe i))
    return (ps.modifyLast (Plan.appendEpilog ps.free)).done
  | o :: os => do
    if ← m.blocking o then m.planBranches i (ps.push (← m.planBlock o)) os
    else
      m.checkFree o.index
      m.planBranches i { ps with free := ps.free ++ [o.index] } os
end

/-- The plan of the whole module. -/
def plan (m : Module) : Checked Plan := m.planBlock (m.outline m.root)

/-- The schedule of a module, without states. -/
def schedule (m : Module) : Checked Schedule := return (← m.plan).flatten

end Module

end Sequencer
