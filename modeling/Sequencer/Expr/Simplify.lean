import Sequencer.Boolean.Cover
import Sequencer.Expr.Fold
import Sequencer.Expr.Spelling

set_option autoImplicit false

/-!
# Simplification of expressions

The boolean skeleton of an expression is minimized over its atoms, the parts that are not connectives. Complementary
comparisons share one atom.
-/

namespace Sequencer

namespace Expr

/-- The skeleton of a part that is not a connective. -/
def atomSkeleton (e : Expr) : Checked (Formula Expr) := do
  match ← e.asBool with
  | some b => return .const b
  | none =>
    match e with
    | .bin .ne l r => return .not (.atom (.bin .eq l r))
    | .bin .ge l r => return .not (.atom (.bin .lt l r))
    | .bin .le l r => return .not (.atom (.bin .gt l r))
    | e => return .atom e

/-- The connectives of an expression, over its atoms. -/
def skeleton : Expr → Checked (Formula Expr)
  | .bin .and l r => return .and (← l.skeleton) (← r.skeleton)
  | .bin .or l r => return .or (← l.skeleton) (← r.skeleton)
  | .un .not a => return .not (← a.skeleton)
  | e => e.atomSkeleton

/-- Builds a formula over expressions with the folding connectives. -/
def ofFormula : Formula Expr → Checked Expr
  | .const b => return bool b
  | .atom e => return e
  | .not f => do (← ofFormula f).negate
  | .and f g => do (← ofFormula f).and (← ofFormula g)
  | .or f g => do (← ofFormula f).or (← ofFormula g)

/-- Minimizes a boolean expression of at most `maxAtoms` atoms and leaves all others as they are. -/
def simplify (maxAtoms : Nat) (e : Expr) : Checked Expr := do
  if !e.isLogic then return e
  let f ← e.skeleton
  let atoms := sortDistinct f.atoms
  if maxAtoms < atoms.length then return e
  let g := (f.map atoms.idxOf).minimize atoms.length
  ofFormula (g.map fun i => atoms.getD i default)

end Expr

end Sequencer
