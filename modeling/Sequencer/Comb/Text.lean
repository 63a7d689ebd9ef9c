import Sequencer.Comb.Basic
import Sequencer.Expr.Text

set_option autoImplicit false

/-!
# Text of combinational logic

One line an assignment, two columns of indentation a guard. A block without a guard is written in place.
-/

namespace Sequencer

def indentation (columns : Nat) : String := String.ofList (List.replicate columns ' ')

namespace Comb

def Assign.line (indent : Nat) (a : Assign) : String :=
  indentation indent ++ a.target ++ " = " ++ a.val.elim "<default>" Expr.text ++ ";\n"

/-- Puts the text of a block's contents, which `body` gives for a column, under its guard. -/
def guarded (guard : Cond) (indent : Nat) (body : Nat → String) : String :=
  match guard with
  | none => body indent
  | some c =>
    indentation indent ++ "if (" ++ c.text ++ ") begin\n" ++ body (indent + 2) ++ indentation indent ++ "end\n"

def Defaults.text (ds : Defaults) (indent : Nat) : String := String.join (ds.assigns.map (Assign.line indent))

mutual
def Stmt.text : Stmt → Nat → String
  | .assign a, indent => a.line indent
  | .block g d ss, indent => guarded g indent fun i => d.text i ++ Stmt.textAll ss i
def Stmt.textAll : List Stmt → Nat → String
  | [], _ => ""
  | s :: ss, indent => s.text indent ++ Stmt.textAll ss indent
end

def Block.text (b : Block) (indent : Nat) : String := b.toStmt.text indent

end Comb

end Sequencer
