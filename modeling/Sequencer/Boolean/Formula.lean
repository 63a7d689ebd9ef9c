set_option autoImplicit false

/-!
# Boolean formulas
-/

namespace Sequencer

inductive Formula (α : Type) where
  | const (b : Bool)
  | atom (a : α)
  | not (f : Formula α)
  | and (f g : Formula α)
  | or (f g : Formula α)
deriving DecidableEq, Repr

namespace Formula

variable {α β : Type}

def eval (ρ : α → Bool) : Formula α → Bool
  | const b => b
  | atom a => ρ a
  | not f => !f.eval ρ
  | and f g => f.eval ρ && g.eval ρ
  | or f g => f.eval ρ || g.eval ρ

def atoms : Formula α → List α
  | const _ => []
  | atom a => [a]
  | not f => f.atoms
  | and f g => f.atoms ++ g.atoms
  | or f g => f.atoms ++ g.atoms

def map (h : α → β) : Formula α → Formula β
  | const b => const b
  | atom a => atom (h a)
  | not f => not (f.map h)
  | and f g => and (f.map h) (g.map h)
  | or f g => or (f.map h) (g.map h)

/-- The left-nested conjunction of a list. -/
def all : List (Formula α) → Formula α
  | [] => const true
  | f :: fs => fs.foldl and f

/-- The left-nested disjunction of a list. -/
def any : List (Formula α) → Formula α
  | [] => const false
  | f :: fs => fs.foldl or f

def negated : Formula α → Formula α
  | const b => const !b
  | f => not f

def conjoined : Formula α → Formula α → Formula α
  | const true, g => g
  | const false, _ => const false
  | f, const true => f
  | _, const false => const false
  | f, g => and f g

def disjoined : Formula α → Formula α → Formula α
  | const false, g => g
  | const true, _ => const true
  | f, const false => f
  | _, const true => const true
  | f, g => or f g

/-- Fixes one atom and drops the constants that result. -/
def restrict [DecidableEq α] (a : α) (b : Bool) : Formula α → Formula α
  | const c => const c
  | atom a' => if a' = a then const b else atom a'
  | not f => (f.restrict a b).negated
  | and f g => (f.restrict a b).conjoined (g.restrict a b)
  | or f g => (f.restrict a b).disjoined (g.restrict a b)

@[simp]
theorem eval_negated (ρ : α → Bool) (f : Formula α) : f.negated.eval ρ = !f.eval ρ := by
  cases f <;> rfl

@[simp]
theorem eval_conjoined (ρ : α → Bool) (f g : Formula α) : (f.conjoined g).eval ρ = (f.eval ρ && g.eval ρ) := by
  unfold conjoined
  split <;> simp [eval]

@[simp]
theorem eval_disjoined (ρ : α → Bool) (f g : Formula α) : (f.disjoined g).eval ρ = (f.eval ρ || g.eval ρ) := by
  unfold disjoined
  split <;> simp [eval]

/-- Fixing an atom at the value that it has changes nothing. -/
theorem eval_restrict [DecidableEq α] (ρ : α → Bool) (a : α) (f : Formula α) :
    (f.restrict a (ρ a)).eval ρ = f.eval ρ := by
  induction f with
  | const b => rfl
  | atom a' => by_cases h : a' = a <;> simp [restrict, eval, h]
  | not f ih => simp [restrict, eval, ih]
  | and f g ihf ihg => simp [restrict, eval, ihf, ihg]
  | or f g ihf ihg => simp [restrict, eval, ihf, ihg]

theorem eval_map (ρ : β → Bool) (h : α → β) (f : Formula α) : (f.map h).eval ρ = f.eval (ρ ∘ h) := by
  induction f with
  | const b => rfl
  | atom a => rfl
  | not f ih => simp [map, eval, ih]
  | and f g ihf ihg => simp [map, eval, ihf, ihg]
  | or f g ihf ihg => simp [map, eval, ihf, ihg]

end Formula

end Sequencer
