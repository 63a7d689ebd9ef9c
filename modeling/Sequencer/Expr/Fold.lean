import Sequencer.DataType.Width
import Sequencer.Expr.Basic

set_option autoImplicit false

/-!
# Folding connectives

Conjunction, disjunction and negation that drop constants and repeats. A literal counts as a truth value if its type is
one bit wide. Reading the width of a literal aborts if it does not fit, so the connectives may abort too.

A condition is an optional expression, where `none` always holds.
-/

namespace Sequencer

namespace Expr

/-- The truth value of a literal of one bit. -/
def asBool : Expr → Checked (Option Bool)
  | .lit l => do
    match ← l.type.width.accepted? with
    | some 1 => return some (l.val != 0)
    | _ => return none
  | _ => return none

def isTrue (e : Expr) : Checked Bool := do return (← e.asBool) == some true

def isFalse (e : Expr) : Checked Bool := do return (← e.asBool) == some false

def and (a b : Expr) : Checked Expr := do
  let p ← a.asBool
  if p = some true then return b
  let q ← b.asBool
  if q = some true then return a
  if p = some false ∨ q = some false then return bool false
  if a = b then return a
  return .bin .and a b

def or (a b : Expr) : Checked Expr := do
  let p ← a.asBool
  if p = some false then return b
  let q ← b.asBool
  if q = some false then return a
  if p = some true ∨ q = some true then return bool true
  if a = b then return a
  return .bin .or a b

def negateAtom (e : Expr) : Checked Expr := do
  match ← e.asBool with
  | some b => return bool !b
  | none => return .un .not e

/-- Undoes a negation, or turns a comparison into its complement, or negates. -/
def negate (e : Expr) : Checked Expr :=
  match e with
  | .un .not a => return a
  | .bin op l r =>
    match op.complement? with
    | some op' => return .bin op' l r
    | none => e.negateAtom
  | e => e.negateAtom

end Expr

abbrev Cond := Option Expr

namespace Cond

def and : Cond → Cond → Checked Cond
  | none, b => return b
  | a, none => return a
  | some a, some b => return some (← a.and b)

def or : Cond → Cond → Checked Cond
  | some a, some b => return some (← a.or b)
  | _, _ => return none

/-- The conjunction of a list of conditions. -/
def all (cs : List Cond) : Checked Cond := cs.foldlM and none

end Cond

/-- The disjunction of a list of expressions. -/
def Expr.any : List Expr → Checked Expr
  | [] => return .bool false
  | e :: es => es.foldlM Expr.or e

end Sequencer
