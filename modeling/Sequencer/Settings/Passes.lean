import Sequencer.Lowering.Aspect
import Sequencer.Settings.Pass

set_option autoImplicit false

/-!
# The passes of the compiler and their settings
-/

namespace Sequencer

open Lowering

namespace Passes

def lower : Pass where
  name := "lower"
  description := "schedule a module and lower it to per-aspect statement trees"
  options := [⟨"validate", "check that every state is reachable from the reset state", .flag true⟩]

def schedule : Pass where
  name := "schedule"
  description := "partition the control tree into sequential and mutually exclusive units"
  options := [⟨"dump", "log the scheduling tree after states are assigned", .flag false⟩]

def findStates : Pass where
  name := "find-states"
  description := "assign states and block ids, resolve register read context"
  options := []

def simplify : Pass where
  name := "simplify"
  description := "minimize block conditions using binary decision diagrams"
  options := [⟨"max-atoms", "do not simplify expressions with more atoms than this", .number 8⟩,
    ⟨"rounds", "number of simplify and alias cleanup rounds", .number 3⟩]

def ofAspect (a : Aspect) : Pass := ⟨a.label, a.description, []⟩

def all : List Pass :=
  [lower, schedule, findStates, simplify] ++
    [Aspect.registers, .freshLatches, .outputs, .inputs, .freshTransitions 0, .freshConditions []].map ofAspect

end Passes

/-- How a module is compiled. -/
structure Settings where
  validate : Bool
  dump : Bool
  maxAtoms : Nat
  rounds : Nat
deriving DecidableEq, Repr

namespace Settings

def defaultMaxAtoms : Nat := 8

def defaultRounds : Nat := 3

def validateOf (values : Listing OptionValue) : Bool := Pass.flag values "validate"

def dumpOf (values : Listing OptionValue) : Bool := Pass.flag values "dump"

def maxAtomsOf (values : Listing OptionValue) : Nat := Pass.natural values "max-atoms" defaultMaxAtoms

def roundsOf (values : Listing OptionValue) : Nat := Pass.natural values "rounds" defaultRounds

/-- Reads the options of all passes. The notices come in the order of the passes. -/
def ofArguments (arguments : List String) : Settings × List Notice :=
  let (lower, lowerLog) := Passes.lower.settings arguments
  let (schedule, scheduleLog) := Passes.schedule.settings arguments
  let (simplify, simplifyLog) := Passes.simplify.settings arguments
  (⟨validateOf lower, dumpOf schedule, maxAtomsOf simplify, roundsOf simplify⟩,
    lowerLog ++ scheduleLog ++ simplifyLog)

end Settings

end Sequencer
