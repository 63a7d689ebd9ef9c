import Sequencer.Bits
import Sequencer.Expr.Fold
import Sequencer.Schedule.Basic

set_option autoImplicit false

/-!
# State space

The states `0, …, maxState` of a module, the register that holds the current one, and tests of it.
-/

namespace Sequencer

structure StateSpace where
  maxState : Nat
deriving DecidableEq, Repr

namespace StateSpace

variable (sp : StateSpace)

def width : Nat := bitsFor (sp.maxState + 1)

/-- The type of a state. -/
def type : DataType := .uint (UInt64.ofNat sp.width)

def register : Expr := .operand ⟨Name.state, .register, .held, sp.type⟩

def literal (state : Nat) : Expr := .literal state sp.type

/-- Whether every state is in the list. -/
def coveredBy (ids : List Nat) : Bool :=
  Nat.blt sp.maxState ids.length && (List.range (sp.maxState + 1)).all ids.contains

/-- Tests whether the current state is in the list. There is nothing to test if the list is empty or has all states. -/
def isIn (ids : List Nat) : Checked Cond :=
  if sp.maxState = 0 ∨ ids.isEmpty ∨ sp.coveredBy ids then return none
  else do return some (← Expr.any (ids.map fun s => .bin .eq sp.register (sp.literal s)))

/-- Tests whether the current state is in `ids`, knowing that it is in `parent`. -/
def narrow (ids parent : List Nat) : Checked Cond :=
  if Segment.sameStates ids parent then return none else sp.isIn ids

end StateSpace

end Sequencer
