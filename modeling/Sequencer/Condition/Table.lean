import Sequencer.Condition.StateSpace

set_option autoImplicit false

/-!
# Condition table

For each block and yield the table defines two conditions: that its cycle completes, and that it is left. The conditions
of a block refer to those of the blocks inside it by name. A condition that always holds is `none`.
-/

namespace Sequencer

open Control

/-- When the cycle of a segment completes and when the segment is left. -/
structure Timing where
  cycle : Cond
  exit : Cond
deriving DecidableEq, Repr

namespace Timing

def always : Timing := ⟨none, none⟩

/-- The two conditions of a block, by name. -/
def ofBlock (id : Nat) : Timing := ⟨some (.flag (Name.cycleCond id)), some (.flag (Name.exitCond id))⟩

def all (ts : List Timing) : Checked Timing := do
  return ⟨← Cond.all (ts.map cycle), ← Cond.all (ts.map exit)⟩

/-- A condition that only matters under a guard. -/
def skipUnless (guard cond : Cond) : Checked Cond :=
  match guard, cond with
  | _, none => return none
  | none, some c => return some c
  | some g, some c => do return some (← (← g.negate).or c)

/-- The conditions of a block, from those of its body. A skipped block completes and is left at once, an interface waits
until it has data, and a loop is left on its exit condition only. -/
def wrap (b : Block) (body : Timing) : Checked Timing :=
  match b.kind with
  | .module | .container => return body
  | .conditional => do return ⟨← skipUnless b.guard body.cycle, ← skipUnless b.guard body.exit⟩
  | .loop exit => do
    return ⟨← skipUnless b.guard body.cycle, ← skipUnless b.guard (← Cond.and body.exit exit)⟩
  | .interface _ => do return ⟨← Cond.and b.guard body.cycle, ← Cond.and b.guard body.exit⟩
  | .interfaceLoop p => do
    return ⟨← Cond.and b.guard body.cycle,
      ← Cond.and b.guard (← Cond.and body.exit (some (.flag (Name.last p))))⟩

end Timing

/-- The definitions by name, for each segment its conditions in terms of them, and the condition under which the whole
module is left. -/
structure ConditionTable where
  conds : Listing Cond
  refs : Arena Timing
  reset : Cond
  space : StateSpace
deriving DecidableEq, Repr

namespace ConditionTable

/-- Definitions by block id, in increasing order. -/
abbrev Defs := List (Nat × Timing)

/-- Defines the conditions of a block, or defines them anew. -/
def define (id : Nat) (t : Timing) : Defs → Defs
  | [] => [(id, t)]
  | (i, u) :: rest =>
    if id = i then (id, t) :: rest
    else if id < i then (id, t) :: (i, u) :: rest
    else (i, u) :: define id t rest

structure Draft where
  defs : Defs
  refs : Arena Timing

/-- What the table is built from. -/
structure Input where
  module : Module
  schedule : Schedule
  space : StateSpace

/-- The yields among a list of statements. -/
def yields (m : Module) (stmts : List Nat) : Checked (List Yield) := do
  return (← stmts.mapM m.stmt).filterMap fun
    | .yield y => some y
    | _ => none

/-- A yield completes when every port that it emits on is ready. -/
def yieldTiming (m : Module) (y : Yield) : Checked Timing := do
  let ready ← Cond.all (((y.vals.zip m.outputs).filter fun e => e.1.isSome).map fun e =>
    some (.flag (Name.ready e.2.name)))
  return ⟨ready, ready⟩

def defineYields (m : Module) (d : Defs) : List Yield → Checked (Defs × List Timing)
  | [] => return (d, [])
  | y :: ys => do
    let some id := y.id | .reject (.unnumbered "Yield")
    let (d, ts) ← defineYields m (define id (← yieldTiming m y) d) ys
    return (d, .ofBlock id :: ts)

/-- The child that is live decides the cycle of a sequence, and the last child decides its exit. -/
def seqTiming (inp : Input) (d : Draft) (seg : Segment) : Checked Timing := do
  let guarded (c : Nat) (part : Timing → Cond) : Checked Cond := do
    let child ← inp.schedule.segment c
    Cond.and (← inp.space.narrow child.states seg.states) (part (← d.refs.get c))
  match seg.children.getLast? with
  | none => return .always
  | some last =>
    let cycles ← seg.children.mapM fun c => guarded c Timing.cycle
    let cycle ← match cycles with
      | [] => pure none
      | c :: cs => cs.foldlM Cond.or c
    return ⟨cycle, ← guarded last Timing.exit⟩

def mutexTiming (d : Draft) (seg : Segment) : Checked Timing := do Timing.all (← seg.children.mapM d.refs.get)

/-- Defines the conditions of one segment from those of its children. -/
def defineSegment (inp : Input) (d : Draft) (i : Nat) (seg : Segment) : Checked Draft := do
  match seg.kind with
  | .leaf =>
    let (defs, ts) ← defineYields inp.module d.defs (← yields inp.module seg.stmts)
    return ⟨defs, ← d.refs.set i (← Timing.all ts)⟩
  | kind =>
    let some node := seg.block | .reject .unitWithoutBlock
    let some b ← inp.module.block? node | .reject (.notControlBlock (← inp.module.describe node))
    let some id := b.id | .reject (.unnumbered b.kind.label)
    let body ← if kind = .seq then seqTiming inp d seg else mutexTiming d seg
    let t ← Timing.wrap b body
    return ⟨define id t d.defs, ← d.refs.set i (.ofBlock id)⟩

mutual
def buildAt (inp : Input) (d : Draft) : Outline → Checked Draft
  | .node i os => do
    let seg ← inp.schedule.segment i
    defineSegment inp (← buildAll inp d os) i seg
def buildAll (inp : Input) (d : Draft) : List Outline → Checked Draft
  | [] => return d
  | o :: os => do buildAll inp (← buildAt inp d o) os
end

/-- The table of a scheduled module with the states `0, …, maxState`. -/
def build (m : Module) (s : Schedule) (maxState : Nat) : Checked ConditionTable := do
  let start : Draft := ⟨[], ⟨Array.replicate s.segments.size .always⟩⟩
  let d ← buildAt ⟨m, s, ⟨maxState⟩⟩ start (s.outline s.root)
  let entries := d.defs.flatMap fun e => [(Name.cycleCond e.1, e.2.cycle), (Name.exitCond e.1, e.2.exit)]
  return ⟨.ofList entries, d.refs, (← d.refs.get s.root).exit, ⟨maxState⟩⟩

variable (t : ConditionTable)

def contains (name : String) : Bool := t.conds.contains name

/-- The definition of a name, if it has one. -/
def get? (name : String) : Option Cond := t.conds.get? name

def timing (segment : Nat) : Checked Timing := t.refs.get segment

def maxState : Nat := t.space.maxState

end ConditionTable

end Sequencer
