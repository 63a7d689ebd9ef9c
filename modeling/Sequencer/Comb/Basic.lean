import Sequencer.Listing
import Sequencer.Expr.Fold

set_option autoImplicit false

/-!
# Combinational logic

Guarded assignments, grouped into blocks. A block first drives its defaults and then runs its statements, so a later
assignment overrides an earlier one.
-/

namespace Sequencer.Comb

/-- What a signal is driven with. A drive without a value has no effect. -/
structure Drive where
  val : Option Expr
  width : Nat
deriving DecidableEq, Repr

structure Assign where
  target : String
  drive : Drive
deriving DecidableEq, Repr

namespace Assign

def val (a : Assign) : Option Expr := a.drive.val

def width (a : Assign) : Nat := a.drive.width

def of (target : String) (val : Expr) (width : Nat) : Assign := ⟨target, some val, width⟩

/-- Assignment to a signal of one bit. -/
def flag (target : String) (val : Expr) : Assign := of target val 1

end Assign

abbrev Defaults := Listing Drive

def Defaults.assigns (ds : Defaults) : List Assign := ds.entries.map fun e => ⟨e.1, e.2⟩

inductive Stmt where
  | assign (a : Assign)
  | block (guard : Cond) (dflts : Defaults) (stmts : List Stmt)
deriving Repr

namespace Stmt

mutual
def beq : Stmt → Stmt → Bool
  | .assign a, .assign b => a == b
  | .block g d ss, .block h e ts => g == h && d == e && beqs ss ts
  | _, _ => false
def beqs : List Stmt → List Stmt → Bool
  | [], [] => true
  | s :: ss, t :: ts => s.beq t && beqs ss ts
  | _, _ => false
end

mutual
theorem beq_eq_true_iff : (s t : Stmt) → (s.beq t = true ↔ s = t)
  | .assign _, t => by cases t <;> simp [beq]
  | .block _ _ ss, t => by
    cases t with
    | assign _ => simp [beq]
    | block _ _ ts => simp [beq, beqs_eq_true_iff ss ts, and_assoc]
theorem beqs_eq_true_iff : (ss ts : List Stmt) → (beqs ss ts = true ↔ ss = ts)
  | [], ts => by cases ts <;> simp [beqs]
  | s :: ss, ts => by
    cases ts with
    | nil => simp [beqs]
    | cons t ts => simp [beqs, beq_eq_true_iff s t, beqs_eq_true_iff ss ts]
end

instance : DecidableEq Stmt := fun s t => decidable_of_iff (s.beq t = true) (beq_eq_true_iff s t)

end Stmt

structure Block where
  guard : Cond
  dflts : Defaults
  stmts : List Stmt
deriving DecidableEq, Repr

namespace Block

def toStmt (b : Block) : Stmt := .block b.guard b.dflts b.stmts

/-- A block without defaults. -/
def of (guard : Cond) (stmts : List Stmt) : Block := ⟨guard, .empty, stmts⟩

instance : Inhabited Block := ⟨of none []⟩

def isEmpty (b : Block) : Bool := b.stmts.isEmpty && b.dflts.isEmpty

def push (b : Block) (s : Stmt) : Block := { b with stmts := b.stmts ++ [s] }

def append (b : Block) (ss : List Stmt) : Block := { b with stmts := b.stmts ++ ss }

/-- The blocks directly inside. -/
def blocks (b : Block) : List Block :=
  b.stmts.filterMap fun
    | .assign _ => none
    | .block g d ss => some ⟨g, d, ss⟩

end Block

mutual
/-- All assignments, defaults before statements. -/
def Stmt.assigns : Stmt → List Assign
  | .assign a => [a]
  | .block _ d ss => d.assigns ++ Stmt.assignsAll ss
def Stmt.assignsAll : List Stmt → List Assign
  | [] => []
  | s :: ss => s.assigns ++ Stmt.assignsAll ss
end

def Block.assigns (b : Block) : List Assign := b.dflts.assigns ++ Stmt.assignsAll b.stmts

mutual
/-- All expressions: a guard, then the values of the defaults, then those of the statements. -/
def Stmt.exprs : Stmt → List Expr
  | .assign a => a.val.toList
  | .block g d ss => g.toList ++ d.values.flatMap (fun x => x.val.toList) ++ Stmt.exprsAll ss
def Stmt.exprsAll : List Stmt → List Expr
  | [] => []
  | s :: ss => s.exprs ++ Stmt.exprsAll ss
end

def Block.exprs (b : Block) : List Expr := b.toStmt.exprs

def Drive.map (f : Expr → Expr) (d : Drive) : Drive := { d with val := d.val.map f }

mutual
/-- Changes every expression by `f`. -/
def Stmt.mapExprs (f : Expr → Expr) : Stmt → Stmt
  | .assign a => .assign ⟨a.target, a.drive.map f⟩
  | .block g d ss => .block (g.map f) (d.map (Drive.map f)) (Stmt.mapExprsAll f ss)
def Stmt.mapExprsAll (f : Expr → Expr) : List Stmt → List Stmt
  | [] => []
  | s :: ss => s.mapExprs f :: Stmt.mapExprsAll f ss
end

def Block.mapExprs (f : Expr → Expr) (b : Block) : Block :=
  ⟨b.guard.map f, b.dflts.map (Drive.map f), Stmt.mapExprsAll f b.stmts⟩

/-- Changes every expression by `f`, which the expressions have to pass in order. -/
def Block.mapExprsChecked (f : Expr → Checked Expr) (b : Block) : Checked Block := do
  discard (b.exprs.mapM f)
  return b.mapExprs fun e =>
    match f e with
    | .ok e' => e'
    | .error _ => e

mutual
/-- The signals driven. -/
def Stmt.targets : Stmt → List String
  | .assign a => [a.target]
  | .block _ d ss => d.keys ++ Stmt.targetsAll ss
def Stmt.targetsAll : List Stmt → List String
  | [] => []
  | s :: ss => s.targets ++ Stmt.targetsAll ss
end

def Block.targets (b : Block) : List String := b.toStmt.targets

@[simp]
theorem Stmt.assignsAll_append (ss ts : List Stmt) :
    Stmt.assignsAll (ss ++ ts) = Stmt.assignsAll ss ++ Stmt.assignsAll ts := by
  induction ss with
  | nil => rfl
  | cons s ss ih => simp [Stmt.assignsAll, ih]

@[simp]
theorem Stmt.targetsAll_append (ss ts : List Stmt) :
    Stmt.targetsAll (ss ++ ts) = Stmt.targetsAll ss ++ Stmt.targetsAll ts := by
  induction ss with
  | nil => rfl
  | cons s ss ih => simp [Stmt.targetsAll, ih]

end Sequencer.Comb
