import Sequencer.Expr.Basic

set_option autoImplicit false

/-!
# Text of expressions

`Expr.text` is the short text for readers. It leaves out types, so different expressions may share it.
-/

namespace Sequencer

def BinOp.symbol : BinOp → String
  | .and => "&&"
  | .or => "||"
  | .xor => "^"
  | .add => "+"
  | .sub => "-"
  | .mul => "*"
  | .eq => "=="
  | .ne => "!="
  | .lt => "<"
  | .le => "<="
  | .gt => ">"
  | .ge => ">="
  | .shl => "<<"
  | .shr => ">>"
  | .bitAnd => "&"
  | .bitOr => "|"

def BinOp.label : BinOp → String
  | .and => "And"
  | .or => "Or"
  | .xor => "Xor"
  | .add => "Add"
  | .sub => "Sub"
  | .mul => "Mul"
  | .eq => "Eq"
  | .ne => "Neq"
  | .lt => "Lt"
  | .le => "Lte"
  | .gt => "Gt"
  | .ge => "Gte"
  | .shl => "Shl"
  | .shr => "Shr"
  | .bitAnd => "BitAnd"
  | .bitOr => "BitOr"

def UnOp.symbol : UnOp → String
  | .not => "!"
  | .invert => "~"
  | .neg => "-"

def UnOp.label : UnOp → String
  | .not => "Not"
  | .invert => "Invert"
  | .neg => "Neg"

def Storage.label : Storage → String
  | .register => "Reg"
  | .latch => "Variable"
  | .port => "Port"

def ReadTime.label : ReadTime → String
  | .held => "Reg"
  | .next => "Next"

def TypeKind.label : TypeKind → String
  | .unit => "Unit"
  | .bool => "Bool"
  | .uint => "Uint"
  | .int => "Int"
  | .tuple => "Tuple"
  | .array => "Array"
  | .queue => "Queue"

namespace Expr

/-- An operand of an operator is put in parentheses if it is itself a binary operation. -/
def parenthesize : Expr → String → String
  | .bin _ _ _, s => "(" ++ s ++ ")"
  | _, s => s

mutual
def text : Expr → String
  | .lit l => toString l.val
  | .operand o => o.signal
  | .wire w => w.name
  | .bin op l r => l.parenthesize l.text ++ " " ++ op.symbol ++ " " ++ r.parenthesize r.text
  | .un op a => op.symbol ++ a.parenthesize a.text
  | .concat as => "\x7b" ++ ", ".intercalate (texts as) ++ "\x7d"
def texts : List Expr → List String
  | [] => []
  | a :: as => a.text :: texts as
end

end Expr

def Cond.text? (c : Option Expr) : Option String := c.map Expr.text

end Sequencer
