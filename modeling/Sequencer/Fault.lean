set_option autoImplicit false

/-!
# Faults

A computation either rejects its input for a stated cause or aborts because an index or a width leaves its range.
The causes are data. Their wording is in `Rejection.diagnostic` and `Abort.text`.
-/

namespace Sequencer

/-- The class of a diagnostic, shown as a heading before its text. -/
inductive Category where
  | malformedControl
  | malformedStructure
  | typing
  | general
deriving DecidableEq, Repr

def Category.heading : Category → String
  | .malformedControl => "Malformed Control: "
  | .malformedStructure => "Malformed Structure: "
  | .typing => "Type Error: "
  | .general => ""

structure Diagnostic where
  category : Category
  detail : String
deriving DecidableEq, Repr

def Diagnostic.text (d : Diagnostic) : String :=
  d.category.heading ++ d.detail

/-- Why an input is refused. Statements and types appear as their descriptions. -/
inductive Rejection where
  | unresolvedWidth (type param : String)
  | missingWidth (type : String) (position : Nat)
  | missingType (type : String) (position : Nat)
  | unknownName (name : String)
  | declaredTwice (name : String)
  | sharedStatement (statement : String)
  | nestedModule
  | undeclaredInterface (statement interface : String)
  | branchNotIf (branch : String)
  | yieldArity (index values ports : Nat)
  | undeclaredRegister (name : String)
  | undeclaredVariable (name : String)
  | notSchedulable (statement : String)
  | loopNeverSuspends (loop : String)
  | containerNeverSuspends (container : String)
  | unitWithoutBlock
  | notControlBlock (statement : String)
  | unnumbered (statement : String)
  | registerWidth (name : String)
  | variableWidth (name : String)
  | unreachableStates (states : List Nat)
deriving DecidableEq, Repr

def Rejection.diagnostic : Rejection → Diagnostic
  | .unresolvedWidth t p => ⟨.typing, "Width of `" ++ t ++ "' depends on unresolved parameter `" ++ p ++ "'"⟩
  | .missingWidth t i => ⟨.typing, "Type `" ++ t ++ "' is missing a width argument at position " ++ toString i⟩
  | .missingType t i => ⟨.typing, "Type `" ++ t ++ "' is missing a type argument at position " ++ toString i⟩
  | .unknownName n => ⟨.malformedStructure, "`" ++ n ++ "' is not a register, variable or input port"⟩
  | .declaredTwice n => ⟨.malformedStructure, "`" ++ n ++ "' is declared more than once"⟩
  | .sharedStatement s => ⟨.malformedStructure, "Statement " ++ s ++ " has more than one parent"⟩
  | .nestedModule => ⟨.malformedStructure, "Module block nested inside the control tree"⟩
  | .undeclaredInterface s i => ⟨.malformedStructure, s ++ " reads undeclared interface `" ++ i ++ "'"⟩
  | .branchNotIf s => ⟨.malformedStructure, "Container branch " ++ s ++ " is not an if block"⟩
  | .yieldArity i n m => ⟨.malformedStructure,
      "Yield #" ++ toString i ++ " emits " ++ toString n ++ " values for " ++ toString m ++ " output ports"⟩
  | .undeclaredRegister r => ⟨.malformedStructure, "Assignment to undeclared register `" ++ r ++ "'"⟩
  | .undeclaredVariable v => ⟨.malformedStructure, "Assignment to undeclared variable `" ++ v ++ "'"⟩
  | .notSchedulable s => ⟨.malformedStructure, s ++ " scheduled as a block"⟩
  | .loopNeverSuspends s => ⟨.malformedControl, s ++ " has no blocking statement and cannot be scheduled"⟩
  | .containerNeverSuspends s => ⟨.malformedStructure, "Container " ++ s ++ " has no blocking branch"⟩
  | .unitWithoutBlock => ⟨.malformedStructure, "Sequential or mutex unit without a control block"⟩
  | .notControlBlock s => ⟨.malformedStructure, s ++ " is not a control block"⟩
  | .unnumbered s => ⟨.malformedStructure, s ++ " was not numbered by the state finder"⟩
  | .registerWidth r => ⟨.malformedStructure, "Register `" ++ r ++ "' has no concrete width"⟩
  | .variableWidth v => ⟨.malformedStructure, "Variable `" ++ v ++ "' has no concrete width"⟩
  | .unreachableStates ss => ⟨.malformedStructure,
      "State transition graph has unreachable states: " ++ ", ".intercalate (ss.map toString)⟩

/-- Why a computation cannot go on although its input is not at fault in the sense of `Rejection`. -/
inductive Abort where
  | outOfBounds (length index : Nat)
  | addOverflow
  | multiplyOverflow
  | expectedBool (value : String)
  | expectedNumber (value : String)
deriving DecidableEq, Repr

def Abort.text : Abort → String
  | .outOfBounds n i => "index out of bounds: the len is " ++ toString n ++ " but the index is " ++ toString i
  | .addOverflow => "attempt to add with overflow"
  | .multiplyOverflow => "attempt to multiply with overflow"
  | .expectedBool v => "Expected bool, got " ++ v
  | .expectedNumber v => "Expected number, got " ++ v

inductive Fault where
  | rejected (cause : Rejection)
  | aborted (cause : Abort)
deriving DecidableEq, Repr

abbrev Checked (α : Type) := Except Fault α

namespace Checked

def reject {α : Type} (cause : Rejection) : Checked α := .error (.rejected cause)

def abort {α : Type} (cause : Abort) : Checked α := .error (.aborted cause)

/-- Forgets why an input was rejected. An abort is not forgotten. -/
def accepted? {α : Type} : Checked α → Checked (Option α)
  | .ok a => .ok (some a)
  | .error (.rejected _) => .ok none
  | .error (.aborted c) => .error (.aborted c)

end Checked

end Sequencer
