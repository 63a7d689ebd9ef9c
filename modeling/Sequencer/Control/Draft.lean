import Sequencer.Control.Basic

set_option autoImplicit false

/-!
# Drafts

A draft collects declarations and statements. Finishing it puts a module block around the top statements and checks
that names are declared once and that the statements form a well-made tree.
-/

namespace Sequencer

open Control

structure Draft where
  name : String
  registers : Listing Register
  vars : Listing DataType
  inputs : List Port
  outputs : List Port
  stmts : Arena Stmt
deriving DecidableEq, Repr

namespace Draft

def start (name : String) : Draft := ⟨name, .empty, .empty, [], [], .empty⟩

def addRegister (d : Draft) (name : String) (type : DataType) (init : Int) : Draft :=
  { d with registers := d.registers.insert name ⟨type, init⟩ }

def addVariable (d : Draft) (name : String) (type : DataType) : Draft :=
  { d with vars := d.vars.insert name type }

def addInput (d : Draft) (name : String) (type : DataType) : Draft :=
  { d with inputs := d.inputs ++ [⟨name, type⟩] }

def addOutput (d : Draft) (name : String) (type : DataType) : Draft :=
  { d with outputs := d.outputs ++ [⟨name, type⟩] }

/-- Reads a declared register, variable or input port, looked up in this order. -/
def read (d : Draft) (name : String) : Checked Expr :=
  match d.registers.get? name, d.vars.get? name, d.inputs.find? (·.name == name) with
  | some r, _, _ => return .operand ⟨name, .register, .held, r.type⟩
  | none, some t, _ => return .operand ⟨name, .latch, .held, t⟩
  | none, none, some p => return .operand ⟨name, .port, .held, p.type⟩
  | none, none, none => .reject (.unknownName name)

/-- The flag that an interface has data. -/
def valid (port : String) : Expr := .flag (Name.valid port)

/-- Adds a statement, under the next index. -/
def add (d : Draft) (s : Stmt) : Draft := { d with stmts := d.stmts.push s }

def block (kind : BlockKind) (guard : Cond) (stmts : List Nat) : Stmt := .block ⟨kind, guard, stmts, none⟩

def emit (vals : List (Option Expr)) : Stmt := .yield ⟨vals, none⟩

def conditional (cond : Expr) (stmts : List Nat) : Stmt := block .conditional (some cond) stmts

def container (branches : List Nat) : Stmt := block .container none branches

def loop (exit : Expr) (stmts : List Nat) : Stmt := block (.loop (some exit)) none stmts

def interface (port : String) (stmts : List Nat) : Stmt := block (.interface port) (some (valid port)) stmts

def interfaceLoop (port : String) (stmts : List Nat) : Stmt := block (.interfaceLoop port) (some (valid port)) stmts

/-- The module around a list of top statements, unchecked. -/
def enclose (d : Draft) (top : List Nat) : Module where
  name := d.name
  registers := d.registers
  vars := d.vars
  inputs := d.inputs
  outputs := d.outputs
  stmts := d.stmts.push (block .module none top)
  root := d.stmts.size

end Draft

/-- The first element of a list that occurs before in it or in `seen`. -/
def firstRepeat {α : Type} [DecidableEq α] (seen : List α) : List α → Option α
  | [] => none
  | a :: as => if a ∈ seen then some a else firstRepeat (a :: seen) as

namespace Module

def declaredNames (m : Module) : List String :=
  m.registers.keys ++ m.vars.keys ++ m.inputs.map Port.name ++ m.outputs.map Port.name

/-- Checks one statement of the tree. -/
def checkStmt (m : Module) (i : Nat) : Checked Unit := do
  match ← m.stmt i with
  | .block b =>
    match b.kind with
    | .module => if i ≠ m.root then .reject .nestedModule else return ()
    | .interface p | .interfaceLoop p =>
      if (m.input? p).isNone then .reject (.undeclaredInterface (← m.describe i) p) else return ()
    | .container =>
      let others ← b.stmts.filterM fun s => do return (← m.kind? s) != some .conditional
      match others with
      | s :: _ => .reject (.branchNotIf (← m.describe s))
      | [] => return ()
    | _ => return ()
  | .yield y =>
    if y.vals.length = m.outputs.length then return ()
    else .reject (.yieldArity i y.vals.length m.outputs.length)
  | .update r _ => if m.registers.contains r then return () else .reject (.undeclaredRegister r)
  | .assign x _ => if m.vars.contains x then return () else .reject (.undeclaredVariable x)

/-- Checks the statements of the tree in order, of which none may occur twice. -/
def checkStmts (m : Module) (seen : List Nat) : List Nat → Checked Unit
  | [] => return ()
  | i :: is => do
    if i ∈ seen then .reject (.sharedStatement (← m.describe i))
    m.checkStmt i
    m.checkStmts (i :: seen) is

def check (m : Module) : Checked Unit := do
  match firstRepeat [] m.declaredNames with
  | some n => .reject (.declaredTwice n)
  | none => m.checkStmts [] (← m.descendants m.root)

end Module

/-- Makes a module with the top statements `top`. -/
def Draft.finish (d : Draft) (top : List Nat) : Checked Module := do
  let m := d.enclose top
  m.check
  return m

end Sequencer
