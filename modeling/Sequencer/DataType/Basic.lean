set_option autoImplicit false

/-!
# Types of data

A type is a kind applied to arguments. An argument is a width of 64 bits, a type, or a parameter that stands for either.
-/

namespace Sequencer

inductive TypeKind where
  | unit
  | bool
  | uint
  | int
  | tuple
  | array
  | queue
deriving DecidableEq, Repr

inductive TypeArg where
  | width (bits : UInt64)
  | type (kind : TypeKind) (args : List TypeArg)
  | param (name : String)
deriving Repr

namespace TypeArg

mutual
def decEq : (a b : TypeArg) → Decidable (a = b)
  | .width m, .width n => if h : m = n then .isTrue (by rw [h]) else .isFalse (by simp [h])
  | .param p, .param q => if h : p = q then .isTrue (by rw [h]) else .isFalse (by simp [h])
  | .type k as, .type l bs =>
    if hk : k = l then
      match decEqs as bs with
      | .isTrue h => .isTrue (by rw [hk, h])
      | .isFalse h => .isFalse (by simp [h])
    else .isFalse (by simp [hk])
  | .width _, .type _ _ => .isFalse (by simp)
  | .width _, .param _ => .isFalse (by simp)
  | .param _, .width _ => .isFalse (by simp)
  | .param _, .type _ _ => .isFalse (by simp)
  | .type _ _, .width _ => .isFalse (by simp)
  | .type _ _, .param _ => .isFalse (by simp)
def decEqs : (as bs : List TypeArg) → Decidable (as = bs)
  | [], [] => .isTrue rfl
  | [], _ :: _ => .isFalse (by simp)
  | _ :: _, [] => .isFalse (by simp)
  | a :: as, b :: bs =>
    match decEq a b, decEqs as bs with
    | .isTrue h, .isTrue hs => .isTrue (by rw [h, hs])
    | .isFalse h, _ => .isFalse (by simp [h])
    | _, .isFalse hs => .isFalse (by simp [hs])
end

instance : DecidableEq TypeArg := decEq

end TypeArg

structure DataType where
  kind : TypeKind
  args : List TypeArg
deriving DecidableEq, Repr

namespace DataType

def toArg (t : DataType) : TypeArg := .type t.kind t.args

def unit : DataType := ⟨.unit, []⟩

def bool : DataType := ⟨.bool, []⟩

def uint (bits : UInt64) : DataType := ⟨.uint, [.width bits]⟩

instance : Inhabited DataType := ⟨unit⟩

def isSigned (t : DataType) : Bool := t.kind == .int

end DataType

mutual
/-- Whether no parameter occurs. -/
def TypeArg.isConcrete : TypeArg → Bool
  | .width _ => true
  | .type _ as => TypeArg.allConcrete as
  | .param _ => false
def TypeArg.allConcrete : List TypeArg → Bool
  | [] => true
  | a :: as => a.isConcrete && TypeArg.allConcrete as
end

def DataType.isConcrete (t : DataType) : Bool := TypeArg.allConcrete t.args

end Sequencer
