import Sequencer.Control.Basic

set_option autoImplicit false

/-!
# Schedules

A schedule groups the statements of a module by clock state. A segment runs its children one after the other (`seq`) or
one of them (`mutex`), or it is a leaf that takes one cycle.
-/

namespace Sequencer

inductive SegmentKind where
  | seq
  | mutex
  | leaf
deriving DecidableEq, Repr

/-- A unit of a schedule. The statements of its prolog and epilog run in the cycle in which it is entered and left. -/
structure Segment where
  kind : SegmentKind
  block : Option Nat
  parent : Option Nat
  children : List Nat
  states : List Nat
  stmts : List Nat
  prolog : List Nat
  epilog : List Nat
deriving DecidableEq, Repr

namespace Segment

def firstState? (s : Segment) : Option Nat := s.states.head?

def lastState? (s : Segment) : Option Nat := s.states.getLast?

/-- Whether both lists hold the same states. -/
def sameStates (ids parent : List Nat) : Bool := ids.length == parent.length && ids.all parent.contains

end Segment

structure Schedule where
  segments : Arena Segment
  root : Nat
deriving DecidableEq, Repr

namespace Schedule

def segment (s : Schedule) (i : Nat) : Checked Segment := s.segments.get i

def outline (s : Schedule) (i : Nat) : Outline := s.segments.outline Segment.children i

def preorder (s : Schedule) : Checked (List Nat) := s.segments.reachable Segment.children s.root

def setStates (s : Schedule) (i : Nat) (states : List Nat) : Checked Schedule := do
  let seg ← s.segment i
  return { s with segments := ← s.segments.set i { seg with states := states } }

end Schedule

end Sequencer
