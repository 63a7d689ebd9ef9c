import Sequencer.Arena
import Sequencer.Listing
import Sequencer.Expr.Fold
import Sequencer.Expr.Text

set_option autoImplicit false

/-!
# Control

A module is a procedure that runs for many clock cycles. Its statements are kept in an arena, and a block lists the
indices of the statements nested in it. A statement is blocking if it may take a cycle of its own.
-/

namespace Sequencer

namespace Control

inductive BlockKind where
  | module
  | interface (port : String)
  | conditional
  | container
  | loop (exit : Cond)
  | interfaceLoop (port : String)
deriving DecidableEq, Repr

namespace BlockKind

def label : BlockKind → String
  | module => "Module"
  | interface _ => "IntfBlock"
  | conditional => "IfBlock"
  | container => "ContainerBlock"
  | loop _ => "Loop"
  | interfaceLoop _ => "IntfLoop"

/-- Whether the block starts over after its last statement. -/
def repeats : BlockKind → Bool
  | module | loop _ | interfaceLoop _ => true
  | _ => false

/-- Whether the block is blocking whatever is nested in it. -/
def suspends : BlockKind → Bool
  | module | interface _ | interfaceLoop _ => true
  | _ => false

def isLoop : BlockKind → Bool
  | loop _ => true
  | _ => false

end BlockKind

structure Block where
  kind : BlockKind
  guard : Cond
  stmts : List Nat
  id : Option Nat
deriving DecidableEq, Repr

/-- Emits a value on the output ports that have one and waits until it is taken. -/
structure Yield where
  vals : List (Option Expr)
  id : Option Nat
deriving DecidableEq, Repr

inductive Stmt where
  | block (b : Block)
  | yield (y : Yield)
  | update (register : String) (val : Expr)
  | assign (var : String) (val : Expr)
deriving DecidableEq, Repr

namespace Stmt

def block? : Stmt → Option Block
  | block b => some b
  | _ => none

def id? : Stmt → Option Nat
  | block b => b.id
  | yield y => y.id
  | _ => none

def setId (n : Nat) : Stmt → Stmt
  | block b => block { b with id := some n }
  | yield y => yield { y with id := some n }
  | s => s

/-- The indices of the statements nested directly. -/
def nested : Stmt → List Nat
  | block b => b.stmts
  | _ => []

def label : Stmt → String
  | block b => b.kind.label
  | yield _ => "Yield"
  | update _ _ => "RegNextStmt"
  | assign _ _ => "VariableStmt"

/-- Changes the expressions that the statement itself holds, not those of nested statements. -/
def mapExprs (f : Expr → Expr) : Stmt → Stmt
  | block b =>
    let kind := match b.kind with
      | .loop exit => .loop (exit.map f)
      | k => k
    block { b with kind := kind, guard := b.guard.map f }
  | yield y => yield { y with vals := y.vals.map (·.map f) }
  | update r v => update r (f v)
  | assign x v => assign x (f v)

/-- What messages call the statement at index `i`. -/
def describe (i : Nat) : Stmt → String
  | block b =>
    let cond := match b.kind, b.guard with
      | .loop (some c), _ => " (exit when `" ++ c.text ++ "')"
      | _, some c => " (if `" ++ c.text ++ "')"
      | _, none => ""
    b.kind.label ++ " #" ++ toString i ++ cond
  | yield _ => "Yield #" ++ toString i
  | update r v => r ++ " <= " ++ v.text
  | assign x v => x ++ " = " ++ v.text

end Stmt

structure Register where
  type : DataType
  init : Int
deriving DecidableEq, Repr

structure Port where
  name : String
  type : DataType
deriving DecidableEq, Repr

end Control

open Control

structure Module where
  name : String
  registers : Listing Register
  vars : Listing DataType
  inputs : List Port
  outputs : List Port
  stmts : Arena Stmt
  root : Nat
deriving DecidableEq, Repr

namespace Module

variable (m : Module)

def stmt (i : Nat) : Checked Stmt := m.stmts.get i

def block? (i : Nat) : Checked (Option Block) := (m.stmt i).map Stmt.block?

def kind? (i : Nat) : Checked (Option BlockKind) := (m.block? i).map (·.map Block.kind)

/-- The statement at `i` with all that is nested in it. -/
def outline (i : Nat) : Outline := m.stmts.outline Stmt.nested i

/-- The statements at and below `i`, each before those nested in it. -/
def descendants (i : Nat) : Checked (List Nat) := m.stmts.reachable Stmt.nested i

mutual
def blocking : Outline → Checked Bool
  | .node i os => do
    match ← m.stmt i with
    | .yield _ => return true
    | .update _ _ | .assign _ _ => return false
    | .block b => if b.kind.suspends then return true else anyBlocking os
def anyBlocking : List Outline → Checked Bool
  | [] => return false
  | o :: os => do if ← blocking o then return true else anyBlocking os
end

def isBlocking (i : Nat) : Checked Bool := m.blocking (m.outline i)

/-- Number of blocking statements in a list. -/
def countBlocking (os : List Outline) : Checked Nat := do return (← os.filterM m.blocking).length

/-- Number of blocking statements nested directly in the statement at `i`. -/
def blockingCount (i : Nat) : Checked Nat := do
  match ← m.block? i with
  | some b => m.countBlocking (b.stmts.map m.outline)
  | none => return 0

def input? (name : String) : Option Port := m.inputs.find? (·.name == name)

/-- Width of the register or variable of that name, if its type has one. -/
def declaredWidth (name : String) : Checked (Option Nat) :=
  match (m.registers.get? name).map Register.type <|> m.vars.get? name with
  | some t => t.width.accepted?
  | none => return none

/-- The first statement with that id. -/
def findId (id : Nat) : Option Nat := m.stmts.toList.findIdx? fun s => s.id? == some id

def describe (i : Nat) : Checked String := (m.stmt i).map (Stmt.describe i)

end Module

end Sequencer
