import Sequencer.Lowering.Session

set_option autoImplicit false

/-!
# Signal classes

What each class of signals does at a block, an update, an assignment, a yield and a change of state.
-/

namespace Sequencer.Lowering

open Control
open Comb (Assign)

namespace Aspect

def conditionsLabel : String := "block_conditions"

def label : Aspect → String
  | registers => "register_next_state"
  | latches _ => "variables"
  | outputs => "outputs"
  | inputs => "inputs"
  | transitions _ => "state_transition"
  | conditions _ => conditionsLabel

def description : Aspect → String
  | registers => "register enable and next value signals"
  | latches _ => "combinational variable latches"
  | outputs => "output port valid and data signals"
  | inputs => "input port ready signals"
  | transitions _ => "state register enable and next state"
  | conditions _ => "per-block cycle and exit conditions"

def freshLatches : Aspect := latches ⟨.empty, []⟩

def freshTransitions (maxState : Nat) : Aspect := transitions (.start maxState)

def freshConditions (wanted : List String) : Aspect := conditions ⟨wanted, []⟩

def graph? : Aspect → Option TransitionGraph
  | transitions g => some g
  | _ => none

def capture? : Aspect → Option Capture
  | conditions c => some c
  | _ => none

/-- Whether a default must not leave its guard. -/
def isControl (asp : Aspect) (a : Assign) : Bool :=
  Name.isControl a.target ||
    match asp with
    | registers => Name.endsIn a.target "_next"
    | latches l => l.differing.contains a.target && l.first.get? a.target != a.val
    | transitions _ => a.target == Name.nextValue Name.state
    | _ => false

end Aspect

namespace Latches

/-- Notes one assignment. -/
def note (l : Latches) (target : String) (val : Expr) : Latches :=
  match l.first.get? target with
  | some v => if v = val then l else { l with differing := l.differing.insert target }
  | none => { l with first := l.first.insert target val }

/-- Notes the assignments of a module in order. -/
def ofModule (m : Module) : Checked Latches := do
  let stmts ← (← m.descendants m.root).mapM m.stmt
  return stmts.foldl (fun l s =>
    match s with
    | .assign x v => l.note (Name.latched x) v
    | _ => l) ⟨.empty, []⟩

end Latches

namespace Capture

/-- The value of a name: the reset condition, a condition of the table, or true. -/
def value (t : ConditionTable) (name : String) : Cond :=
  if name = Name.resetCond then t.reset else (t.get? name).join

/-- The conditions that the value of a name refers to. -/
def mentioned (t : ConditionTable) (name : String) : List String :=
  ((value t name).elim [] Expr.wireNames).filter t.contains

/-- Captures a name and all that it refers to. -/
def add (c : Capture) (t : ConditionTable) (name : String) : Capture :=
  { c with captured := explore (mentioned t) (t.conds.entries.length + 1) c.captured name }

/-- Captures the conditions of a block that are wanted. -/
def addBlock (c : Capture) (t : ConditionTable) (id : Option Nat) : Capture :=
  match id with
  | none => c
  | some n =>
    [Name.cycleCond n, Name.exitCond n].foldl (fun c name => if c.wanted.contains name then c.add t name else c) c

/-- Captures what is still wanted, by name, and gives all definitions in the order of capture. -/
def finish (c : Capture) (t : ConditionTable) : List Assign :=
  let rest := Name.sort (c.wanted.filter fun n => !c.captured.contains n)
  (rest.foldl (fun c n => c.add t n) c).captured.map fun n => .flag n ((value t n).getD (.bool true))

end Capture

def assigns (as : List Assign) : List Comb.Stmt := as.map .assign

/-- Every register is disabled and keeps its value, unless a statement says otherwise. -/
def enterRegisters (kind : Option BlockKind) : Lower (List Assign) := do
  if kind ≠ some .module then return []
  let entries ← (← read).module.registers.entries.mapM fun e => do
    let w ← check e.2.type.width
    return [Assign.flag (Name.enable e.1) (.bool false),
      .of (Name.nextValue e.1) (.operand ⟨e.1, .register, .held, e.2.type⟩) w]
  return entries.flatten

/-- An interface is ready in the cycle in which it is left, an interface loop in every cycle that it completes. -/
def enterInputs (b : Option Block) : Lower (List Assign) := do
  let ready (port : String) (cond : Cond) : Assign := .flag (Name.ready port) (cond.getD (.bool true))
  match b with
  | none => return []
  | some b =>
    match b.kind, b.id with
    | .module, _ => return (← read).module.inputs.map fun p => .flag (Name.ready p.name) (.bool false)
    | .interface p, some id => return [ready p (← blockExit id)]
    | .interfaceLoop p, some id => return [ready p (← blockCycle id)]
    | _, _ => return []

/-- What a signal class assigns on entry to the block at `i`. -/
def enterBlock (i : Nat) : Lower (List Comb.Stmt) := do
  match ← aspect with
  | .registers => return assigns (← enterRegisters (← kind? i))
  | .latches l =>
    let m := (← read).module
    if i = m.root ∧ l.first.isEmpty then
      setAspect (.latches (← check (Latches.ofModule m)))
    return []
  | .outputs =>
    if (← kind? i) ≠ some .module then return []
    return assigns ((← read).module.outputs.map fun p => .flag (Name.valid p.name) (.bool false))
  | .inputs => return assigns (← enterInputs (← block? i))
  | .transitions _ =>
    if (← kind? i) ≠ some .module ∨ (← maxState) = 0 then return []
    return assigns [.flag (Name.enable Name.state) (.bool false)]
  | .conditions c =>
    match ← block? i with
    | none => return []
    | some b =>
      let ctx ← read
      let c := if b.kind = .module ∧ !ctx.module.registers.isEmpty then c.add ctx.table Name.resetCond else c
      setAspect (.conditions (c.addBlock ctx.table b.id))
      return []

def visitUpdate (register : String) (val : Expr) : Lower (List Comb.Stmt) := do
  match ← aspect with
  | .registers =>
    let some w ← check ((← read).module.declaredWidth register) | check (.reject (.registerWidth register))
    let enable := (← cycleCond).getD (.bool true)
    return assigns [.flag (Name.enable register) enable, .of (Name.nextValue register) val w]
  | _ => return []

def visitAssign (var : String) (val : Expr) : Lower (List Comb.Stmt) := do
  match ← aspect with
  | .latches _ =>
    let some w ← check ((← read).module.declaredWidth var) | check (.reject (.variableWidth var))
    return assigns [.of (Name.latched var) val w]
  | _ => return []

def visitYield (y : Yield) : Lower (List Comb.Stmt) := do
  match ← aspect with
  | .outputs =>
    let emitted := (y.vals.zip (← read).module.outputs).filterMap fun e => e.1.map fun v => (v, e.2)
    let entries ← emitted.mapM fun e => do
      let w ← check e.2.type.width
      return [Assign.flag (Name.valid e.2.name) (.bool true), .of (Name.data e.2.name) e.1 w]
    return assigns entries.flatten
  | .conditions c =>
    setAspect (.conditions (c.addBlock (← read).table y.id))
    return []
  | _ => return []

/-- A move from one state to another under a condition. -/
structure Transition where
  source : Nat
  target : Nat
  cond : Cond
deriving DecidableEq, Repr

/-- Adds a change of state to a block. -/
def assignState (b : Comb.Block) (tr : Transition) : Lower Comb.Block := do
  match ← aspect with
  | .transitions g =>
    let sp := (← read).table.space
    if sp.maxState = 0 then return b
    let change : Comb.Block :=
      ⟨tr.cond, Listing.empty.insert (Name.nextValue Name.state) ⟨some (sp.literal tr.target), sp.width⟩,
        assigns [.flag (Name.enable Name.state) (.bool true)]⟩
    setAspect (.transitions (g.add tr.source tr.target))
    return b.push change.toStmt
  | _ => return b

end Sequencer.Lowering
