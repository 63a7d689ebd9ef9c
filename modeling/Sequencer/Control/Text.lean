import Sequencer.Control.Basic
import Sequencer.Comb.Text

set_option autoImplicit false

/-!
# Text of control trees
-/

namespace Sequencer

namespace Control

def idText (id : Option Nat) : String := id.elim "" fun n => "[" ++ toString n ++ "]"

def Block.heading (b : Block) : String :=
  b.kind.label ++ idText b.id ++ b.guard.elim "" (fun c => " (" ++ c.text ++ ")") ++ " \x7b\n"

def Yield.text (y : Yield) : String :=
  "yield" ++ idText y.id ++ " " ++ ", ".intercalate (y.vals.map fun v => v.elim "_" Expr.text) ++ ";\n"

end Control

namespace Module

mutual
def textAt (m : Module) (indent : Nat) : Outline → Checked String
  | .node i os => do
    match ← m.stmt i with
    | .block b =>
      return indentation indent ++ b.heading ++ (← m.textsAt (indent + 2) os) ++ indentation indent ++ "\x7d\n"
    | .yield y => return indentation indent ++ y.text
    | .update r v => return indentation indent ++ r ++ " <= " ++ v.text ++ ";\n"
    | .assign x v => return indentation indent ++ x ++ " = " ++ v.text ++ ";\n"
def textsAt (m : Module) (indent : Nat) : List Outline → Checked String
  | [] => return ""
  | o :: os => return (← m.textAt indent o) ++ (← m.textsAt indent os)
end

def text (m : Module) : Checked String := m.textAt 0 (m.outline m.root)

end Module

end Sequencer
