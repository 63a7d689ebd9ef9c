import Sequencer.Schedule.Basic

set_option autoImplicit false

/-!
# States and block ids

Every segment is entered in a state. A `seq` segment takes a new state for each child after the first. Blocks and yields
are numbered in the order in which their segments are visited.
-/

namespace Sequencer

open Control

/-- A module and its schedule while states and ids are given out. -/
structure Numbering where
  module : Module
  schedule : Schedule
  maxState : Nat
  nextId : Nat

namespace Numbering

abbrev Run (α : Type) := StateT Numbering Checked α

/-- Gives the next id to a block or yield. -/
def number (i : Nat) : Run Unit := fun n => do
  let s ← n.module.stmt i
  match s with
  | .block _ | .yield _ =>
    let stmts ← n.module.stmts.set i (s.setId n.nextId)
    return ((), { n with module := { n.module with stmts := stmts }, nextId := n.nextId + 1 })
  | _ => return ((), n)

def numberAll : List Nat → Run Unit
  | [] => pure ()
  | i :: is => do
    number i
    numberAll is

def segment (i : Nat) : Run Segment := fun n => do return (← n.schedule.segment i, n)

def setStates (i : Nat) (states : List Nat) : Run Unit := fun n => do
  return ((), { n with schedule := ← n.schedule.setStates i states })

/-- Adds the states of the segment `child` to those of the segment `i`. -/
def mergeStates (i child : Nat) : Run Unit := do
  let new := (← segment child).states
  let old := (← segment i).states
  setStates i (new.foldl (fun acc s => if acc.contains s then acc else acc ++ [s]) old)

def newState : Run Nat := fun n => return (n.maxState + 1, { n with maxState := n.maxState + 1 })

mutual
/-- Numbers a segment that is entered in the state `entry`, and what is below it. -/
def visit (entry : Nat) : Outline → Run Unit
  | .node i os => do
    setStates i [entry]
    let seg ← segment i
    numberAll seg.block.toList
    match seg.kind with
    | .leaf => numberAll seg.stmts
    | kind => visitChildren i kind entry os
/-- Numbers the children of the segment `i`, the first of which is entered in the state `entry`. -/
def visitChildren (i : Nat) (kind : SegmentKind) (entry : Nat) : List Outline → Run Unit
  | [] => pure ()
  | o :: os => do
    visit entry o
    mergeStates i o.index
    let entry ← if kind = .seq ∧ !os.isEmpty then newState else pure entry
    visitChildren i kind entry os
end

def run (m : Module) (s : Schedule) : Checked Numbering := do
  let (_, n) ← visit 0 (s.outline s.root) ⟨m, s, 0, 0⟩
  return n

end Numbering

end Sequencer
