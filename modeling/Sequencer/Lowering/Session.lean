import Sequencer.Comb.Defaults
import Sequencer.Condition.Table
import Sequencer.Graph.Transition

set_option autoImplicit false

/-!
# Lowering sessions

Lowering walks a scheduled module once for each class of signals. A session holds what changes on the way: the stack of
cycle conditions, the named conditions referred to so far, and the notes of the signal class. A fault leaves the session
as it stands at that point.
-/

namespace Sequencer.Lowering

open Control

/-- What is lowered. -/
structure Context where
  module : Module
  schedule : Schedule
  table : ConditionTable

/-- The values assigned to each variable: the first one, and whether there are others. -/
structure Latches where
  first : Listing Expr
  differing : List String
deriving DecidableEq, Repr

/-- The conditions to be defined, and those captured so far with all that they refer to. -/
structure Capture where
  wanted : List String
  captured : List String
deriving DecidableEq, Repr

/-- A class of signals and its notes. -/
inductive Aspect where
  | registers
  | latches (notes : Latches)
  | outputs
  | inputs
  | transitions (graph : TransitionGraph)
  | conditions (capture : Capture)
deriving DecidableEq, Repr

structure Session where
  cycles : List Cond
  used : List String
  aspect : Aspect
deriving DecidableEq, Repr

abbrev Lower (α : Type) := ReaderT Context (ExceptT Fault (StateM Session)) α

/-- Runs a step of lowering. The session is given back also when the step fails. -/
def Lower.perform {α : Type} (x : Lower α) (ctx : Context) (s : Session) : Checked α × Session := (x ctx) s

namespace Session

def start (aspect : Aspect) : Session := ⟨[], [], aspect⟩

def use (s : Session) (names : List String) : Session := { s with used := names.foldl (fun u n => u.insert n) s.used }

end Session

def check {α : Type} (x : Checked α) : Lower α := fun _ => ExceptT.mk (pure x)

def aspect : Lower Aspect := return (← get).aspect

def setAspect (a : Aspect) : Lower Unit := modify fun s => { s with aspect := a }

def stmt (i : Nat) : Lower Stmt := do check ((← read).module.stmt i)

def block? (i : Nat) : Lower (Option Block) := do check ((← read).module.block? i)

def kind? (i : Nat) : Lower (Option BlockKind) := do check ((← read).module.kind? i)

def segment (i : Nat) : Lower Segment := do check ((← read).schedule.segment i)

def timing (i : Nat) : Lower Timing := do check ((← read).table.timing i)

def maxState : Lower Nat := return (← read).table.maxState

/-- Notes the named conditions that an expression refers to. -/
def mark (cond : Cond) : Lower Unit := do
  let t := (← read).table
  modify fun s => s.use ((cond.elim [] Expr.wireNames).filter t.contains)

/-- Notes the named conditions that a tree refers to. -/
def markTree (b : Comb.Block) : Lower Unit := do
  let t := (← read).table
  modify fun s => s.use ((b.exprs.flatMap Expr.wireNames).filter t.contains)

def pushCycle (cond : Cond) : Lower Unit := modify fun s => { s with cycles := cond :: s.cycles }

def popCycle : Lower Unit := modify fun s => { s with cycles := s.cycles.tail }

def currentCycle : Lower Cond := return (← get).cycles.head?.join

/-- The condition under which the current cycle completes. -/
def cycleCond : Lower Cond := do
  let c ← currentCycle
  mark c
  return c

def cycleRef (segment : Nat) : Lower Cond := do
  let t ← timing segment
  mark t.cycle
  return t.cycle

def exitRef (segment : Nat) : Lower Cond := do
  let t ← timing segment
  mark t.exit
  return t.exit

/-- Refers to a condition of the table by name. -/
def named (name : String) : Lower Cond := do
  if (← read).table.contains name then
    modify fun s => s.use [name]
    return some (.flag name)
  return none

def blockCycle (id : Nat) : Lower Cond := named (Name.cycleCond id)

def blockExit (id : Nat) : Lower Cond := named (Name.exitCond id)

end Sequencer.Lowering
