import Sequencer.Schedule.Basic
import Sequencer.Comb.Text

set_option autoImplicit false

/-!
# Text of schedules
-/

namespace Sequencer.Schedule

def labelOf (m : Module) (i : Nat) : Checked String := (m.stmt i).map Control.Stmt.label

def lengthText (title : String) (stmts : List Nat) : String :=
  if stmts.isEmpty then "" else " " ++ title ++ ": " ++ toString stmts.length

mutual
def textAt (m : Module) (s : Schedule) (indent : Nat) : Outline → Checked String
  | .node i os => do
    let seg ← s.segment i
    let states := ", ".intercalate (seg.states.map toString)
    match seg.kind with
    | .leaf =>
      let labels ← seg.stmts.mapM (labelOf m)
      return indentation indent ++ "Leaf: state " ++ states ++ ", [" ++ ", ".intercalate labels ++ "]\n"
    | kind =>
      let title := if kind = .seq then "SeqCBlock" else "MutexCBlock"
      let label ← match seg.block with
        | some b => labelOf m b
        | none => pure ""
      let line := indentation indent ++ title ++ ": states: [" ++ states ++ "], (" ++ label ++ ")" ++
        lengthText "prolog" seg.prolog ++ lengthText "epilog" seg.epilog ++ "\n"
      return line ++ (← textsAt m s (indent + 4) os)
def textsAt (m : Module) (s : Schedule) (indent : Nat) : List Outline → Checked String
  | [] => return ""
  | o :: os => return (← textAt m s indent o) ++ (← textsAt m s indent os)
end

def text (m : Module) (s : Schedule) : Checked String := textAt m s 0 (s.outline s.root)

end Sequencer.Schedule
