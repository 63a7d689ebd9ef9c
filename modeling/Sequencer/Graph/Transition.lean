import Sequencer.Fault
import Sequencer.Graph.Search

set_option autoImplicit false

/-!
# Transition graph

The moves of the state machine, in the order in which they were found, each once.
-/

namespace Sequencer

structure TransitionGraph where
  maxState : Nat
  edges : List (Nat × Nat)
deriving DecidableEq, Repr

namespace TransitionGraph

def start (maxState : Nat) : TransitionGraph := ⟨maxState, []⟩

def add (g : TransitionGraph) (source target : Nat) : TransitionGraph :=
  if g.edges.contains (source, target) then g else { g with edges := g.edges ++ [(source, target)] }

def successors (g : TransitionGraph) (s : Nat) : List Nat :=
  g.edges.filterMap fun e => if e.1 = s then some e.2 else none

/-- The states that can be reached from state 0. A path without repeats has at most one state more than the graph has
edges. -/
def reached (g : TransitionGraph) : List Nat := explore g.successors (g.edges.length + 1) [] 0

/-- The states that cannot be reached from state 0, in increasing order. -/
def unreachable (g : TransitionGraph) : List Nat :=
  let reached := g.reached
  (List.range (g.maxState + 1)).filter fun s => !reached.contains s

def validate (g : TransitionGraph) : Checked Unit :=
  match g.unreachable with
  | [] => return ()
  | ss => .reject (.unreachableStates ss)

end TransitionGraph

end Sequencer
