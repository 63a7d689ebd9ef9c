import Sequencer.Comb.Basic
import Sequencer.Expr.Simplify

set_option autoImplicit false

/-!
# Condition networks

Named conditions that refer to each other, and the trees that use them. Simplification minimizes each condition, lets
conditions with equal values share one definition, and replaces a name that only stands for another one.
-/

namespace Sequencer

open Comb

structure Network where
  conds : List Assign
  trees : List Block
deriving DecidableEq, Repr

namespace Network

/-- Replaces the value of an assignment. -/
def withVal (c : Assign) (val : Expr) : Assign := ⟨c.target, some val, c.width⟩

def simplifyEach (maxAtoms : Nat) : List Assign → Checked (List Assign)
  | [] => return []
  | c :: cs => do
    let c' ← match c.val with
      | some v => do pure (withVal c (← v.simplify maxAtoms))
      | none => pure c
    return c' :: (← simplifyEach maxAtoms cs)

/-- Redefines a compound condition as the first one of the same value. `seen` holds the values met so far. -/
def shareEqual (seen : List (Expr × String)) : List Assign → List Assign
  | [] => []
  | c :: cs =>
    match c.val with
    | some v =>
      if v.isLogic then
        match seen.lookup v with
        | some first => withVal c (.flag first) :: shareEqual seen cs
        | none => c :: shareEqual ((v, c.target) :: seen) cs
      else c :: shareEqual seen cs
    | none => c :: shareEqual seen cs

/-- The conditions whose value is another condition of the list. -/
def directAliases (conds : List Assign) : Listing String :=
  let names := conds.map Assign.target
  .ofList (conds.filterMap fun c =>
    match c.val with
    | some (.wire w) => if names.contains w.name ∧ w.name ≠ c.target then some (c.target, w.name) else none
    | _ => none)

/-- The end of a chain of aliases, or none if it runs in a circle. -/
def chase (direct : Listing String) : Nat → List String → String → Option String
  | 0, _, _ => none
  | steps + 1, seen, name =>
    match direct.get? name with
    | none => some name
    | some next => if seen.contains name then none else chase direct steps (name :: seen) next

/-- Each alias with the condition that it stands for in the end. -/
def aliases (conds : List Assign) : Listing String :=
  let direct := directAliases conds
  .ofList (direct.entries.filterMap fun e =>
    (chase direct (direct.entries.length + 1) [e.1] e.2).map fun stop => (e.1, stop))

/-- Replaces aliases by what they stand for. -/
def redirect (as : Listing String) (e : Expr) : Expr :=
  e.replaceWires fun w => (as.get? w.name).map fun stop => .wire ⟨stop, w.width⟩

def round (maxAtoms : Nat) (n : Network) : Checked Network := do
  let conds := shareEqual [] (← simplifyEach maxAtoms n.conds)
  let as := aliases conds
  if as.isEmpty then return { n with conds := conds }
  return ⟨conds.map fun c => ⟨c.target, c.drive.map (redirect as)⟩, n.trees.map (Block.mapExprs (redirect as))⟩

/-- Simplifies a network until its conditions do not change, at most `rounds` times. -/
def simplify (maxAtoms : Nat) : Nat → Network → Checked Network
  | 0, n => return n
  | rounds + 1, n => do
    let n' ← n.round maxAtoms
    if n'.conds = n.conds then return n' else simplify maxAtoms rounds n'

end Network

end Sequencer
