import Sequencer.Condition.Network
import Sequencer.Lowering.Walk
import Sequencer.Schedule.Plan
import Sequencer.Schedule.Reads
import Sequencer.Schedule.Text
import Sequencer.Settings.Passes

set_option autoImplicit false

/-!
# Compilation

From a module to its lowered form: registers, one tree of assignments for each class of signals, and the graph of
state transitions.
-/

namespace Sequencer

open Comb Lowering

namespace Lowering

/-- Lowers one class of signals, after what the session `s` has seen so far. -/
def runAspect (ctx : Context) (s : Session) (a : Aspect) : Checked Block × Session :=
  Lower.perform lowerModule ctx { s with aspect := a }

/-- Lowers classes of signals one after the other and stops at the first fault. -/
def runAspects (ctx : Context) : Session → List Aspect → Checked (List (String × Block) × Session)
  | s, [] => return ([], s)
  | s, a :: as => do
    let (tree, s) := runAspect ctx s a
    let tree ← tree
    let (trees, s) ← runAspects ctx s as
    return ((a.label, tree) :: trees, s)

/-- The trees of all classes but the conditions, the definitions of the conditions that they use, and the moves of the
state machine. -/
structure Signals where
  trees : List (String × Block)
  conds : List Assign
  graph : TransitionGraph
deriving Repr

def Context.signals (ctx : Context) (validate : Bool) : Checked Signals := do
  let states := Aspect.freshTransitions ctx.table.maxState
  let (trees, s) ← runAspects ctx (.start .registers) [.registers, .freshLatches, .outputs, .inputs, states]
  let graph := s.aspect.graph?.getD (.start ctx.table.maxState)
  if validate then graph.validate
  let (_, s) ← runAspects ctx s [.freshConditions s.used]
  return ⟨trees, s.aspect.capture?.elim [] (Capture.finish · ctx.table), graph⟩

namespace Signals

def simplify (maxAtoms rounds : Nat) (s : Signals) : Checked Signals := do
  let n ← Network.simplify maxAtoms rounds ⟨s.conds, s.trees.map Prod.snd⟩
  return { s with trees := (s.trees.map Prod.fst).zip n.trees, conds := n.conds }

/-- All trees by class, the definitions of the conditions last. -/
def aspects (s : Signals) : Listing Block :=
  (Listing.ofList s.trees).insert Aspect.conditionsLabel (.of none (assigns s.conds))

end Signals

end Lowering

structure Lowered where
  module : Module
  maxState : Nat
  registers : Listing Control.Register
  aspects : Listing Block
  transitions : TransitionGraph
deriving Repr

/-- The definitions of the conditions. -/
def Lowered.conditions (l : Lowered) : List Assign := (l.aspects.get? Aspect.conditionsLabel).elim [] Block.assigns

/-- A lowered module and the notices on the way. -/
structure Compiled where
  lowered : Lowered
  log : List Notice
deriving Repr

/-- The registers of a module, and the state register if there is more than one state. -/
def Module.loweredRegisters (m : Module) (sp : StateSpace) : Listing Control.Register :=
  if sp.maxState = 0 then m.registers else m.registers.insert Name.state ⟨sp.type, 0⟩

/-- Lowers a module whose states are assigned. -/
def Staged.lower (st : Staged) (settings : Settings) : Checked Lowered := do
  let table ← ConditionTable.build st.module st.schedule st.maxState
  let signals ← Context.signals ⟨st.module, st.schedule, table⟩ settings.validate
  let signals ← signals.simplify settings.maxAtoms settings.rounds
  return ⟨st.module, st.maxState, st.module.loweredRegisters table.space, signals.aspects, signals.graph⟩

/-- The notice that shows the schedule, if it is asked for. -/
def Staged.dump (st : Staged) (settings : Settings) : Checked (List Notice) := do
  if settings.dump then return [⟨.info, ← Schedule.text st.module st.schedule⟩] else return []

/-- Compiles a module with options given as arguments. -/
def compile (m : Module) (arguments : List String) : Checked Compiled := do
  let (settings, notices) := Settings.ofArguments arguments
  let st ← m.stage (← m.schedule)
  let dump ← st.dump settings
  return ⟨← st.lower settings, notices ++ dump⟩

end Sequencer
