set_option autoImplicit false

/-!
# Depth-first search
-/

namespace Sequencer

/-- Adds to `seen` what can be reached from `a` over `next` without passing through `seen`, each before what is first
reached from it, along paths of at most `depth` elements. -/
def explore {α : Type} [DecidableEq α] (next : α → List α) : Nat → List α → α → List α
  | 0, seen, _ => seen
  | depth + 1, seen, a => if a ∈ seen then seen else (next a).foldl (explore next depth) (seen ++ [a])

end Sequencer
