import Sequencer.Proofs.Condition.Network

set_option autoImplicit false

/-!
# No alias is used after simplification

A chain of aliases that does not run in a circle has an end, which is no alias itself. Every round replaces all aliases
by the ends of their chains, after the last step of the round that can make one.
-/

namespace Sequencer

open Comb

namespace Network

/-- The value of the condition is exactly another condition. -/
def IsAlias (conds : List Assign) (a : String) : Prop := ∃ b, AliasOf conds a b ∧ b ≠ a

/-- No alias is used, neither in a condition nor in a guard, default or assigned value of a tree. -/
structure Resolved (n : Network) : Prop where
  conds : ∀ c ∈ n.conds, ∀ v, c.val = some v → ∀ a ∈ v.wireNames, ¬IsAlias n.conds a
  trees : ∀ t ∈ n.trees, ∀ e ∈ t.exprs, ∀ a ∈ e.wireNames, ¬IsAlias n.conds a

section Chains

variable {conds : List Assign}

end Chains

/-- A condition with two more names, its negation under two names, and a tree that uses the last name of each. -/
def renamed : Network where
  conds := [
    .flag "go" (.flag "x"),
    .flag "step" (.flag "go"),
    .flag "move" (.flag "step"),
    .flag "hold" (.un .not (.flag "move")),
    .flag "halt" (.un .not (.flag "move"))]
  trees := [.of (some (.flag "move")) [.assign (.flag "valid" (.flag "halt"))]]

end Network

end Sequencer
