import Sequencer.DataType.Basic

set_option autoImplicit false

/-!
# Text of types
-/

namespace Sequencer

/-- Text of a type, given the texts of its arguments. A number type with just a width has a short form. -/
def DataType.textOf (t : DataType) (args : List String) : String :=
  let listed := ", ".intercalate args
  match t.kind, t.args with
  | .unit, _ => "()"
  | .bool, _ => "bool"
  | .uint, [.width w] => "u" ++ toString w.toNat
  | .int, [.width w] => "i" ++ toString w.toNat
  | .uint, _ => "Uint[" ++ listed ++ "]"
  | .int, _ => "Int[" ++ listed ++ "]"
  | .tuple, _ => "(" ++ listed ++ ")"
  | .array, _ => "Array[" ++ listed ++ "]"
  | .queue, _ => "Queue[" ++ listed ++ "]"

mutual
def TypeArg.text : TypeArg → String
  | .width n => toString n.toNat
  | .type k as => (DataType.mk k as).textOf (TypeArg.texts as)
  | .param p => p
def TypeArg.texts : List TypeArg → List String
  | [] => []
  | a :: as => a.text :: TypeArg.texts as
end

def DataType.text (t : DataType) : String := t.textOf (TypeArg.texts t.args)

end Sequencer
