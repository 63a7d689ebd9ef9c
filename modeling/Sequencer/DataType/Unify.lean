import Sequencer.Listing
import Sequencer.DataType.Basic

set_option autoImplicit false

/-!
# Templates

A type with parameters is a template. Matching it with a type binds its parameters, and filling it in replaces the
parameters that are bound.
-/

namespace Sequencer

abbrev Bindings := Listing TypeArg

mutual
/-- Matches a template argument with an argument. A parameter bound before has to be bound to the same argument. The
bindings made on the way stay when the match fails later. -/
def TypeArg.unify : TypeArg → TypeArg → Bindings → Bool × Bindings
  | .param p, b, s =>
    match s.get? p with
    | some bound => (bound == b, s)
    | none => (true, s.insert p b)
  | .width m, .width n, s => (m == n, s)
  | .type k as, .type l bs, s =>
    if k = l ∧ as.length = bs.length then TypeArg.unifyAll as bs s else (false, s)
  | _, _, s => (false, s)
def TypeArg.unifyAll : List TypeArg → List TypeArg → Bindings → Bool × Bindings
  | a :: as, b :: bs, s =>
    match a.unify b s with
    | (true, s) => TypeArg.unifyAll as bs s
    | (false, s) => (false, s)
  | _, _, s => (true, s)
end

mutual
def TypeArg.substitute (s : Bindings) : TypeArg → TypeArg
  | .param p => (s.get? p).getD (.param p)
  | .type k as => .type k (TypeArg.substituteAll s as)
  | .width n => .width n
def TypeArg.substituteAll (s : Bindings) : List TypeArg → List TypeArg
  | [] => []
  | a :: as => a.substitute s :: TypeArg.substituteAll s as
end

namespace DataType

def unify (template concrete : DataType) (s : Bindings) : Bool × Bindings := template.toArg.unify concrete.toArg s

def substitute (s : Bindings) (t : DataType) : DataType := ⟨t.kind, TypeArg.substituteAll s t.args⟩

end DataType

end Sequencer
