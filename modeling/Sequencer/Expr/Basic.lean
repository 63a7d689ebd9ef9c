import Sequencer.Name
import Sequencer.DataType.Basic

set_option autoImplicit false

/-!
# Expressions

Expressions read registers, variables and ports (`Operand`) and generated wires (`Wire`).
-/

namespace Sequencer

inductive BinOp where
  | and
  | or
  | xor
  | add
  | sub
  | mul
  | eq
  | ne
  | lt
  | le
  | gt
  | ge
  | shl
  | shr
  | bitAnd
  | bitOr
deriving DecidableEq, Repr

/-- The comparison that holds exactly when the given one does not. -/
def BinOp.complement? : BinOp → Option BinOp
  | .eq => some .ne
  | .ne => some .eq
  | .lt => some .ge
  | .ge => some .lt
  | .gt => some .le
  | .le => some .gt
  | _ => none

inductive UnOp where
  | not
  | invert
  | neg
deriving DecidableEq, Repr

/-- Where an operand is kept. -/
inductive Storage where
  | register
  | latch
  | port
deriving DecidableEq, Repr

/-- Which value of a register is read: the one held, or the one it gets at the end of the cycle. -/
inductive ReadTime where
  | held
  | next
deriving DecidableEq, Repr

structure Operand where
  name : String
  storage : Storage
  time : ReadTime
  type : DataType
deriving DecidableEq, Repr

/-- The signal that carries the value of an operand. -/
def Operand.signal (o : Operand) : String :=
  match o.storage, o.time with
  | .register, .held => Name.held o.name
  | .register, .next => Name.nextValue o.name
  | .latch, _ => Name.latched o.name
  | .port, _ => Name.data o.name

structure Literal where
  val : Int
  type : DataType
deriving DecidableEq, Repr

/-- A signal known by name only. -/
structure Wire where
  name : String
  width : Nat
deriving DecidableEq, Repr

inductive Expr where
  | lit (l : Literal)
  | operand (o : Operand)
  | wire (w : Wire)
  | bin (op : BinOp) (lhs rhs : Expr)
  | un (op : UnOp) (arg : Expr)
  | concat (parts : List Expr)
deriving Repr

namespace Expr

mutual
def beq : Expr → Expr → Bool
  | .lit a, .lit b => a == b
  | .operand a, .operand b => a == b
  | .wire a, .wire b => a == b
  | .bin o a b, .bin p c d => o == p && a.beq c && b.beq d
  | .un o a, .un p b => o == p && a.beq b
  | .concat as, .concat bs => beqs as bs
  | _, _ => false
def beqs : List Expr → List Expr → Bool
  | [], [] => true
  | a :: as, b :: bs => a.beq b && beqs as bs
  | _, _ => false
end

mutual
theorem beq_iff_eq : (a b : Expr) → (a.beq b = true ↔ a = b)
  | .lit _, b => by cases b <;> simp [beq]
  | .operand _, b => by cases b <;> simp [beq]
  | .wire _, b => by cases b <;> simp [beq]
  | .bin _ a₁ a₂, b => by
    cases b with
    | bin _ b₁ b₂ => simp [beq, beq_iff_eq a₁ b₁, beq_iff_eq a₂ b₂, and_assoc]
    | _ => simp [beq]
  | .un _ a, b => by
    cases b with
    | un _ b => simp [beq, beq_iff_eq a b]
    | _ => simp [beq]
  | .concat as, b => by
    cases b with
    | concat bs => simp [beq, beqs_iff_eq as bs]
    | _ => simp [beq]
theorem beqs_iff_eq : (as bs : List Expr) → (beqs as bs = true ↔ as = bs)
  | [], bs => by cases bs <;> simp [beqs]
  | a :: as, bs => by
    cases bs with
    | nil => simp [beqs]
    | cons b bs => simp [beqs, beq_iff_eq a b, beqs_iff_eq as bs]
end

instance : DecidableEq Expr := fun a b => decidable_of_iff (a.beq b = true) (beq_iff_eq a b)

def literal (val : Int) (type : DataType) : Expr := .lit ⟨val, type⟩

def bool (b : Bool) : Expr := literal (if b then 1 else 0) .bool

/-- A wire of one bit. -/
def flag (name : String) : Expr := .wire ⟨name, 1⟩

instance : Inhabited Expr := ⟨bool false⟩

/-- The parts directly below the top of an expression. -/
def children : Expr → List Expr
  | .lit _ | .operand _ | .wire _ => []
  | .bin _ l r => [l, r]
  | .un _ a => [a]
  | .concat as => as

/-- Whether the top of an expression is a boolean connective. -/
def isLogic : Expr → Bool
  | .bin .and _ _ | .bin .or _ _ | .un .not _ => true
  | _ => false

mutual
/-- The wires read, in reading order. -/
def wires : Expr → List Wire
  | .lit _ | .operand _ => []
  | .wire w => [w]
  | .bin _ l r => l.wires ++ r.wires
  | .un _ a => a.wires
  | .concat as => wiresAll as
def wiresAll : List Expr → List Wire
  | [] => []
  | a :: as => a.wires ++ wiresAll as
end

def wireNames (e : Expr) : List String := e.wires.map Wire.name

mutual
/-- The operands read, in reading order. -/
def operands : Expr → List Operand
  | .lit _ | .wire _ => []
  | .operand o => [o]
  | .bin _ l r => l.operands ++ r.operands
  | .un _ a => a.operands
  | .concat as => operandsAll as
def operandsAll : List Expr → List Operand
  | [] => []
  | a :: as => a.operands ++ operandsAll as
end

mutual
/-- The names of all signals read, operands included. -/
def reads : Expr → List String
  | .lit _ => []
  | .operand o => [o.signal]
  | .wire w => [w.name]
  | .bin _ l r => l.reads ++ r.reads
  | .un _ a => a.reads
  | .concat as => readsAll as
def readsAll : List Expr → List String
  | [] => []
  | a :: as => a.reads ++ readsAll as
end

mutual
/-- Replaces every operand by `f` of it and every wire by `g` of it. -/
def substitute (f : Operand → Expr) (g : Wire → Expr) : Expr → Expr
  | .lit l => .lit l
  | .operand o => f o
  | .wire w => g w
  | .bin op l r => .bin op (l.substitute f g) (r.substitute f g)
  | .un op a => .un op (a.substitute f g)
  | .concat as => .concat (substituteAll f g as)
def substituteAll (f : Operand → Expr) (g : Wire → Expr) : List Expr → List Expr
  | [] => []
  | a :: as => a.substitute f g :: substituteAll f g as
end

def mapOperands (f : Operand → Operand) (e : Expr) : Expr := e.substitute (fun o => .operand (f o)) .wire

/-- Replaces the wires for which `f` has a replacement. -/
def replaceWires (f : Wire → Option Expr) (e : Expr) : Expr :=
  e.substitute .operand fun w => (f w).getD (.wire w)

end Expr

end Sequencer
