import Sequencer.Boolean.Diagram

set_option autoImplicit false

/-!
# Covers

A cube fixes some atoms and leaves the others open. A cover is a list of cubes, true where one of them is. Cubes are
compared pairwise and dropped or widened as long as the comparison allows, in an order that decides which of several
minimal covers results.
-/

namespace Sequencer

/-- For each atom its required value, or none if it is open. -/
abbrev Cube := List (Option Bool)

namespace Cube

def top (atoms : Nat) : Cube := List.replicate atoms none

/-- Number of atoms at which the cubes require different values. -/
def clashes (l r : Cube) : Nat :=
  (l.zip r).countP fun
    | (some a, some b) => a != b
    | _ => false

/-- Number of atoms fixed by the left cube and open in the right one. -/
def excess (l r : Cube) : Nat :=
  (l.zip r).countP fun
    | (some _, none) => true
    | _ => false

/-- Opens the atoms at which `l` requires another value than `r`. -/
def widen (l r : Cube) : Cube :=
  List.zipWith (fun
    | some a, some b => if a = b then some a else none
    | a, _ => a) l r

/-- Number of atoms fixed. -/
def weight (c : Cube) : Nat := c.countP Option.isSome

/-- What comparing two cubes of a cover does to them. -/
inductive Verdict where
  | keep
  | dropLeft
  | dropRight
  | fuse (left : Cube)
  | widenLeft (left : Cube)
  | widenRight (right : Cube)
deriving DecidableEq, Repr

/-- A cube that another one contains is dropped. Cubes that differ in the value of one atom only are fused. If one is
the other but for the value of one atom and further fixed atoms, its fixing of that atom is not needed. -/
def compare (l r : Cube) : Verdict :=
  if l = r then .dropRight
  else
    match l.clashes r, l.excess r, r.excess l with
    | 0, _ + 1, 0 => .dropLeft
    | 0, 0, _ + 1 => .dropRight
    | 1, 0, 0 => .fuse (l.widen r)
    | 1, 0, _ + 1 => .widenRight (r.widen l)
    | 1, _ + 1, 0 => .widenLeft (l.widen r)
    | _, _, _ => .keep

/-- The requirements of a cube, in the order of the atoms. -/
def literals (c : Cube) : List (Formula Nat) :=
  c.zipIdx.filterMap fun
    | (some true, i) => some (.atom i)
    | (some false, i) => some (.not (.atom i))
    | (none, _) => none

end Cube

namespace Cover

/-- Slots of a cover under reduction, and the slots still to be compared with all others. A dropped cube leaves an
empty slot. -/
structure Reduction where
  slots : Array (Option Cube)
  pending : List Nat

namespace Reduction

def put (s : Reduction) (i : Nat) (c : Option Cube) : Reduction := { s with slots := s.slots.setIfInBounds i c }

def enqueue (s : Reduction) (i : Nat) : Reduction := { s with pending := s.pending ++ [i] }

def cube? (s : Reduction) (i : Nat) : Option Cube := (s.slots[i]?).join

/-- Compares slot `i` with each of the slots `js` until its own cube is dropped. -/
def scan (i : Nat) : List Nat → Reduction → Reduction
  | [], s => s
  | j :: js, s =>
    match s.cube? i, s.cube? j with
    | none, _ => s
    | some _, none => scan i js s
    | some l, some r =>
      if j = i then scan i js s
      else
        match l.compare r with
        | .keep => scan i js s
        | .dropLeft => s.put i none
        | .dropRight => scan i js (s.put j none)
        | .fuse c => scan i js (((s.put i (some c)).enqueue i).put j none)
        | .widenLeft c => scan i js ((s.put i (some c)).enqueue i)
        | .widenRight c => scan i js ((s.put j (some c)).enqueue j)

/-- Works off the pending slots, at most `steps` of them. -/
def run : Nat → Reduction → Reduction
  | 0, s => s
  | steps + 1, s =>
    match s.pending with
    | [] => s
    | i :: rest => run steps (scan i (List.range s.slots.size) { s with pending := rest })

end Reduction

/-- Drops and widens cubes until nothing is pending. Every slot is pending once, and again whenever an atom of a cube
is opened, which bounds the number of steps. -/
def reduce (cubes : List Cube) : List Cube :=
  let start : Reduction := ⟨(cubes.map some).toArray, List.range cubes.length⟩
  let steps := cubes.length + cubes.foldr (fun c n => c.weight + n) 0
  (start.run steps).slots.toList.filterMap id

/-- A cover of a diagram over `atoms` atoms. -/
def ofDiagram (atoms : Nat) : Diagram → List Cube
  | .leaf false => []
  | .leaf true => [Cube.top atoms]
  | .branch a low high =>
    reduce ((ofDiagram atoms low).map (·.set a (some false)) ++ (ofDiagram atoms high).map (·.set a (some true)))

end Cover

namespace Formula

/-- A sum of products as a formula, with the factors that all its products share pulled out. -/
def factor (products : List (List (Formula Nat))) : Formula Nat :=
  match products with
  | [p] => all p
  | ps =>
    let shared := (ps.headD []).filter fun x => ps.all (·.contains x)
    if shared.isEmpty then any (ps.map all)
    else
      match any (ps.map fun p => all (p.filter fun x => !shared.contains x)) with
      | .const true => all shared
      | rest => .and (all shared) rest

/-- The factored minimal cover of the function that `f` denotes over `atoms` atoms. -/
def minimize (atoms : Nat) (f : Formula Nat) : Formula Nat :=
  factor ((Cover.ofDiagram atoms (.ofFormula atoms f)).map Cube.literals)

end Formula

end Sequencer
