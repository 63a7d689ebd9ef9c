import Sequencer.Character.Ignorable
import Sequencer.Character.Mark
import Sequencer.Character.Unprinted
import Sequencer.DataType.Text
import Sequencer.Expr.Text

set_option autoImplicit false

/-!
# Spelled-out expressions

The spelling of an expression writes every part out, types included. No two expressions share a spelling, so ordering by
text and then by spelling is a total order. Its tags put binary operations first, then concatenations, operands,
literals, wires and unary operations.
-/

namespace Sequencer

namespace Spelling

/-- Whether a character cannot be told by sight: it has no form of its own, it is left out of a display, or it joins the
one before it. -/
def isHidden (c : Char) : Bool :=
  [Character.unprinted, Character.ignorable, Character.marks].any (·.holds c.toNat)

/-- A character inside quotes. Hidden characters are written by name or by number. -/
def escape (c : Char) : List Char :=
  if c = '"' ∨ c = '\\' then ['\\', c]
  else if c = '\n' then ['\\', 'n']
  else if c = '\r' then ['\\', 'r']
  else if c = '\t' then ['\\', 't']
  else if c.toNat = 0 then ['\\', '0']
  else if isHidden c then
    ['\\', 'u', '\x7b'] ++ Nat.toDigits 16 c.toNat ++ ['\x7d']
  else [c]

def quote (s : String) : String := String.ofList ('"' :: s.toList.flatMap escape ++ ['"'])

def list (items : List String) : String := "[" ++ ",".intercalate items ++ "]"

end Spelling

def DataType.spellingOf (kind : TypeKind) (args : List String) : String := kind.label ++ Spelling.list args

mutual
def TypeArg.spelling : TypeArg → String
  | .width n => "Width(" ++ toString n.toNat ++ ")"
  | .type k as => "Type(" ++ DataType.spellingOf k (TypeArg.spellings as) ++ ")"
  | .param p => "Param(" ++ Spelling.quote p ++ ")"
def TypeArg.spellings : List TypeArg → List String
  | [] => []
  | a :: as => a.spelling :: TypeArg.spellings as
end

def DataType.spelling (t : DataType) : String := DataType.spellingOf t.kind (TypeArg.spellings t.args)

namespace Expr

def tag : Expr → String
  | .lit _ => "Res"
  | .operand _ => "Operand"
  | .wire _ => "Signal"
  | .bin _ _ _ => "BinOp"
  | .un _ _ => "UnaryOp"
  | .concat _ => "Concat"

mutual
def spelling : Expr → String
  | .lit l => "Res(" ++ toString l.val ++ "," ++ l.type.spelling ++ ")"
  | .operand o => "Operand(" ++ Spelling.quote o.name ++ "," ++ o.storage.label ++ "," ++ o.time.label ++ "," ++
      o.type.spelling ++ ")"
  | .wire w => "Signal(" ++ Spelling.quote w.name ++ "," ++ toString w.width ++ ")"
  | .bin op l r => "BinOp(" ++ op.label ++ "," ++ l.spelling ++ "," ++ r.spelling ++ ")"
  | .un op a => "UnaryOp(" ++ op.label ++ "," ++ a.spelling ++ ")"
  | .concat as => "Concat(" ++ Spelling.list (spellings as) ++ ")"
def spellings : List Expr → List String
  | [] => []
  | a :: as => a.spelling :: spellings as
end

/-- The key by which expressions are ordered. -/
def sortKey (e : Expr) : String × String := (e.text, e.spelling)

/-- Order by text, then by spelling. -/
def keyLe (a b : String × String) : Bool := if a.1 = b.1 then Name.le a.2 b.2 else Name.le a.1 b.1

/-- The expressions of a list in order, each once. -/
def sortDistinct (es : List Expr) : List Expr :=
  let keyed := (es.map fun e => (e.sortKey, e)).mergeSort fun a b => keyLe a.1 b.1
  (keyed.map Prod.snd).eraseReps

end Expr

end Sequencer
