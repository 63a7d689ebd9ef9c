import Sequencer.Fault
import Sequencer.DataType.Text

set_option autoImplicit false

/-!
# Widths of types

The number of bits of a type. Widths are counted in 64 bits, so a sum or a product of 2^64 or more aborts.
-/

namespace Sequencer

def widthLimit : Nat := Nat.pow 2 64

def addWidths (m n : Nat) : Checked Nat :=
  if m + n < widthLimit then .ok (m + n) else .abort .addOverflow

def mulWidths (m n : Nat) : Checked Nat :=
  if m * n < widthLimit then .ok (m * n) else .abort .multiplyOverflow

namespace DataType

/-- The argument at `position`, which has to be a width. -/
def widthArg (t : DataType) (position : Nat) : Checked Nat :=
  match t.args[position]? with
  | some (.width n) => .ok n.toNat
  | some (.param p) => .reject (.unresolvedWidth t.text p)
  | _ => .reject (.missingWidth t.text position)

/-- Width of the argument at `position`, which has to be a type. `inner` holds the widths of the arguments that are
types. -/
def typeArgWidth (t : DataType) (inner : List (Option (Checked Nat))) (position : Nat) : Checked Nat :=
  match inner[position]?, t.args[position]? with
  | some (some w), _ => w
  | _, some (.param p) => .reject (.unresolvedWidth t.text p)
  | _, _ => .reject (.missingType t.text position)

/-- Width of a type, given the widths of the arguments that are types. -/
def widthOf (t : DataType) (inner : List (Option (Checked Nat))) : Checked Nat :=
  match t.kind with
  | .unit => .ok 0
  | .bool => .ok 1
  | .uint | .int => t.widthArg 0
  | .tuple => (List.range t.args.length).foldlM (fun sum i => do addWidths sum (← t.typeArgWidth inner i)) 0
  | .array => do mulWidths (← t.typeArgWidth inner 0) (← t.widthArg 1)
  | .queue => do addWidths (← t.typeArgWidth inner 0) (← t.widthArg 1)

end DataType

mutual
/-- Width of an argument that is a type. -/
def TypeArg.innerWidth : TypeArg → Option (Checked Nat)
  | .type k as => some ((DataType.mk k as).widthOf (TypeArg.innerWidths as))
  | _ => none
def TypeArg.innerWidths : List TypeArg → List (Option (Checked Nat))
  | [] => []
  | a :: as => a.innerWidth :: TypeArg.innerWidths as
end

def DataType.width (t : DataType) : Checked Nat := t.widthOf (TypeArg.innerWidths t.args)

end Sequencer
