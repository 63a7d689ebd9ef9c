import Sequencer.Boolean.Formula

set_option autoImplicit false

/-!
# Decision diagrams

The reduced ordered decision diagram of a formula over the atoms `0, 1, …, n - 1`, as a tree. It depends only on the
boolean function that the formula denotes.
-/

namespace Sequencer

inductive Diagram where
  | leaf (b : Bool)
  | branch (atom : Nat) (low high : Diagram)
deriving DecidableEq, Repr

namespace Diagram

def eval (ρ : Nat → Bool) : Diagram → Bool
  | leaf b => b
  | branch a low high => if ρ a then high.eval ρ else low.eval ρ

/-- A decision on which nothing depends is left out. -/
def choose (atom : Nat) (low high : Diagram) : Diagram := if low = high then low else branch atom low high

@[simp]
theorem eval_choose (ρ : Nat → Bool) (atom : Nat) (low high : Diagram) :
    (choose atom low high).eval ρ = if ρ atom then high.eval ρ else low.eval ρ := by
  unfold choose
  split
  · rename_i h
    simp [h]
  · rfl

/-- The diagram of a formula over `count` atoms from `next` on. -/
def ofFormulaFrom : Nat → Nat → Formula Nat → Diagram
  | _, _, .const b => leaf b
  | 0, _, f => leaf (f.eval fun _ => false)
  | count + 1, next, f =>
    choose next (ofFormulaFrom count (next + 1) (f.restrict next false))
      (ofFormulaFrom count (next + 1) (f.restrict next true))

def ofFormula (atoms : Nat) (f : Formula Nat) : Diagram := ofFormulaFrom atoms 0 f

end Diagram

end Sequencer
