import Sequencer.Compile
import Sequencer.Json

set_option autoImplicit false

/-!
# Lowered modules as JSON

A value of one of several cases is an object with the case as its only key.
-/

namespace Sequencer

def DataType.jsonOf (kind : TypeKind) (args : List Json) : Json := .obj [("kind", .str kind.label), ("args", .arr args)]

mutual
def TypeArg.json : TypeArg → Json
  | .width n => .tagged "Width" (.num n.toNat)
  | .type k as => .tagged "Type" (DataType.jsonOf k (TypeArg.jsons as))
  | .param p => .tagged "Param" (.str p)
def TypeArg.jsons : List TypeArg → List Json
  | [] => []
  | a :: as => a.json :: TypeArg.jsons as
end

def DataType.json (t : DataType) : Json := DataType.jsonOf t.kind (TypeArg.jsons t.args)

mutual
def Expr.json : Expr → Json
  | .lit l => .tagged "Res" (.obj [("val", .num l.val), ("dtype", l.type.json)])
  | .operand o => .tagged "Operand" (.obj [("name", .str o.name), ("kind", .str o.storage.label),
      ("context", .str o.time.label), ("dtype", o.type.json)])
  | .wire w => .tagged "Signal" (.obj [("name", .str w.name), ("width", .num w.width)])
  | .bin op l r => .tagged "BinOp" (.obj [("op", .str op.label), ("lhs", l.json), ("rhs", r.json)])
  | .un op a => .tagged "UnaryOp" (.obj [("op", .str op.label), ("operand", a.json)])
  | .concat as => .tagged "Concat" (.arr (Expr.jsons as))
def Expr.jsons : List Expr → List Json
  | [] => []
  | a :: as => a.json :: Expr.jsons as
end

def Cond.json (c : Cond) : Json := (c.map Expr.json).getD .null

namespace Comb

def Assign.json (a : Assign) : Json :=
  .obj [("target", .str a.target), ("val", Cond.json a.val), ("width", .num a.width)]

def Defaults.json (ds : Defaults) : Json := .obj (ds.assigns.map fun a => (a.target, a.json))

def Block.jsonOf (guard : Cond) (dflts : Defaults) (stmts : List Json) : Json :=
  .obj [("in_cond", Cond.json guard), ("stmts", .arr stmts), ("dflts", dflts.json)]

mutual
def Stmt.json : Stmt → Json
  | .assign a => .tagged "Assign" a.json
  | .block g d ss => .tagged "Block" (Block.jsonOf g d (Stmt.jsons ss))
def Stmt.jsons : List Stmt → List Json
  | [] => []
  | s :: ss => s.json :: Stmt.jsons ss
end

def Block.json (b : Block) : Json := Block.jsonOf b.guard b.dflts (Stmt.jsons b.stmts)

end Comb

def Control.Register.json (name : String) (r : Control.Register) : Json :=
  .obj [("name", .str name), ("dtype", r.type.json), ("init", .num r.init)]

def Lowered.json (l : Lowered) : Json :=
  .obj [("max_state", .num l.maxState),
    ("regs", .obj (l.registers.entries.map fun e => (e.1, e.2.json e.1))),
    ("aspects", .obj (l.aspects.entries.map fun e => (e.1, e.2.json)))]

def Lowered.jsonText (l : Lowered) : String := l.json.pretty

end Sequencer
