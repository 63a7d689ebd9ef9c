import Mathlib.Algebra.Ring.Int.Defs
import Sequencer.Expr.Fold
import Sequencer.Proofs.Checked

set_option autoImplicit false

/-!
# Values of expressions

An interpretation says what literals and operations mean. It reads the connectives as boolean operators, comparisons as
complementary pairs and literals of one bit as truth values, and is free in all else. A valuation gives values to
operands and wires.

The folding connectives compute the connectives they stand for.
-/

namespace Sequencer

structure Interpretation (V : Type) where
  truth : V → Bool
  lit : Literal → V
  bin : BinOp → V → V → V
  un : UnOp → V → V
  concat : List V → V
  truth_and : ∀ a b, truth (bin .and a b) = (truth a && truth b)
  truth_or : ∀ a b, truth (bin .or a b) = (truth a || truth b)
  truth_not : ∀ a, truth (un .not a) = !truth a
  truth_complement : ∀ op op' a b, op.complement? = some op' → truth (bin op' a b) = !truth (bin op a b)
  truth_lit : ∀ l : Literal, l.type.width = .ok 1 → truth (lit l) = (l.val != 0)

structure Valuation (V : Type) where
  operand : Operand → V
  wire : Wire → V

namespace Interpretation

variable {V : Type} (I : Interpretation V)

/-- The value of a truth bit. -/
def bit (b : Bool) : V := I.lit ⟨if b then 1 else 0, .bool⟩

@[simp]
theorem truth_bit (b : Bool) : I.truth (I.bit b) = b := by
  have hw : DataType.bool.width = .ok 1 := rfl
  rw [bit, I.truth_lit _ hw]
  cases b <;> rfl

/-- All values have one bit, and arithmetic is modulo two. -/
def oneBit : Interpretation Bool where
  truth v := v
  lit l := l.val != 0
  bin op a b :=
    match op with
    | .and | .mul | .bitAnd => a && b
    | .or | .bitOr => a || b
    | .xor | .add | .sub | .ne => a != b
    | .eq => !(a != b)
    | .lt => !a && b
    | .ge => !(!a && b)
    | .gt => !(!a || b)
    | .le => !a || b
    | .shl | .shr => a
  un op a :=
    match op with
    | .not | .invert => !a
    | .neg => a
  concat vs := vs.any id
  truth_and _ _ := rfl
  truth_or _ _ := rfl
  truth_not _ := rfl
  truth_complement op op' a b h := by
    cases op with
    | eq | ne | lt | ge | gt | le =>
      cases h
      simp
    | _ => cases h
  truth_lit _ _ := rfl

/-- Values are integers, whatever the width. -/
def integers : Interpretation Int where
  truth v := v != 0
  lit l := l.val
  bin op a b :=
    match op with
    | .and => if a != 0 && b != 0 then 1 else 0
    | .or => if a != 0 || b != 0 then 1 else 0
    | .xor => if (a != 0) != (b != 0) then 1 else 0
    | .add => a + b
    | .sub => a - b
    | .mul => a * b
    | .eq => if a = b then 1 else 0
    | .ne => if a = b then 0 else 1
    | .lt => if a < b then 1 else 0
    | .ge => if a < b then 0 else 1
    | .gt => if b < a then 1 else 0
    | .le => if b < a then 0 else 1
    | .shl => a * 2 ^ b.toNat
    | .shr => a / 2 ^ b.toNat
    | .bitAnd => (a.toNat &&& b.toNat : Nat)
    | .bitOr => (a.toNat ||| b.toNat : Nat)
  un op a :=
    match op with
    | .not => if a != 0 then 0 else 1
    | .invert => -a - 1
    | .neg => -a
  concat vs := vs.sum
  truth_and a b := by
    dsimp only
    split <;> simp_all
  truth_or a b := by
    dsimp only
    split <;> simp_all
  truth_not a := by
    dsimp only
    split <;> simp_all
  truth_complement op op' a b h := by
    cases op with
    | eq | ne | lt | ge | gt | le =>
      cases h
      dsimp only
      split <;> rfl
    | _ => cases h
  truth_lit _ _ := rfl

end Interpretation

/-- All flags are set but those named, and all operands are zero. -/
def Valuation.allBut (names : List String) : Valuation Int where
  operand _ := 0
  wire w := if names.contains w.name then 0 else 1

namespace Expr

variable {V : Type} (I : Interpretation V) (ρ : Valuation V)

mutual
def eval : Expr → V
  | .lit l => I.lit l
  | .operand o => ρ.operand o
  | .wire w => ρ.wire w
  | .bin op l r => I.bin op (eval l) (eval r)
  | .un op a => I.un op (eval a)
  | .concat as => I.concat (evalAll as)
def evalAll : List Expr → List V
  | [] => []
  | a :: as => eval a :: evalAll as
end

def holds (e : Expr) : Bool := I.truth (e.eval I ρ)

@[simp]
theorem eval_bool (b : Bool) : (bool b).eval I ρ = I.bit b := rfl

@[simp]
theorem eval_flag (name : String) : (flag name).eval I ρ = ρ.wire ⟨name, 1⟩ := rfl

@[simp]
theorem holds_bool (b : Bool) : (bool b).holds I ρ = b := I.truth_bit b

@[simp]
theorem holds_bin_and (l r : Expr) : (bin .and l r).holds I ρ = (l.holds I ρ && r.holds I ρ) :=
  I.truth_and _ _

@[simp]
theorem holds_bin_or (l r : Expr) : (bin .or l r).holds I ρ = (l.holds I ρ || r.holds I ρ) :=
  I.truth_or _ _

@[simp]
theorem holds_un_not (a : Expr) : (un .not a).holds I ρ = !a.holds I ρ := I.truth_not _

theorem holds_complement {op op' : BinOp} (h : op.complement? = some op') (l r : Expr) :
    (bin op' l r).holds I ρ = !(bin op l r).holds I ρ :=
  I.truth_complement op op' _ _ h

theorem asBool_eq_some {e : Expr} {b : Bool} (h : e.asBool = .ok (some b)) :
    ∃ l : Literal, e = .lit l ∧ l.type.width = .ok 1 ∧ b = (l.val != 0) := by
  cases e with
  | lit l =>
    rw [asBool, Checked.bind_eq_ok] at h
    obtain ⟨w, hw, h⟩ := h
    split at h
    · refine ⟨l, rfl, Checked.accepted?_eq_some.1 hw, ?_⟩
      simpa using h.symm
    · simp at h
  | _ => simp [asBool] at h

theorem holds_of_asBool {e : Expr} {b : Bool} (h : e.asBool = .ok (some b)) : e.holds I ρ = b := by
  obtain ⟨l, rfl, hw, rfl⟩ := asBool_eq_some h
  exact I.truth_lit l hw

/-- The folding connective `op`, for which `unit` is neutral. -/
def connect (op : BinOp) (unit : Bool) (a b : Expr) : Checked Expr := do
  let p ← a.asBool
  if p = some unit then return b
  let q ← b.asBool
  if q = some unit then return a
  if p = some !unit ∨ q = some !unit then return bool !unit
  if a = b then return a
  return .bin op a b

theorem and_eq_connect (a b : Expr) : a.and b = connect .and true a b := rfl

theorem or_eq_connect (a b : Expr) : a.or b = connect .or false a b := rfl

theorem connect_cases {op : BinOp} {unit : Bool} {a b c : Expr} (h : connect op unit a b = .ok c) :
    a.asBool = .ok (some unit) ∧ c = b ∨ b.asBool = .ok (some unit) ∧ c = a ∨
      (a.asBool = .ok (some !unit) ∨ b.asBool = .ok (some !unit)) ∧ c = bool !unit ∨ a = b ∧ c = a ∨ c = .bin op a b := by
  rw [connect, Checked.bind_eq_ok] at h
  obtain ⟨p, hp, h⟩ := h
  split at h
  · cases h
    exact .inl ⟨by simp_all, rfl⟩
  · rw [Checked.bind_eq_ok] at h
    obtain ⟨q, hq, h⟩ := h
    split at h
    · cases h
      exact .inr (.inl ⟨by simp_all, rfl⟩)
    · split at h
      · rename_i hother
        cases h
        refine .inr (.inr (.inl ⟨?_, rfl⟩))
        rw [hp, hq]
        simpa using hother
      · split at h
        · rename_i hab
          cases h
          exact .inr (.inr (.inr (.inl ⟨hab, rfl⟩)))
        · cases h
          exact .inr (.inr (.inr (.inr rfl)))

theorem holds_and {a b c : Expr} (h : a.and b = .ok c) : c.holds I ρ = (a.holds I ρ && b.holds I ρ) := by
  rw [and_eq_connect] at h
  rcases connect_cases h with ⟨ha, rfl⟩ | ⟨hb, rfl⟩ | ⟨ha | hb, rfl⟩ | ⟨rfl, rfl⟩ | rfl
  · rw [holds_of_asBool I ρ ha, Bool.true_and]
  · rw [holds_of_asBool I ρ hb, Bool.and_true]
  · rw [holds_of_asBool I ρ ha, holds_bool, Bool.not_true, Bool.false_and]
  · rw [holds_of_asBool I ρ hb, holds_bool, Bool.not_true, Bool.and_false]
  · rw [Bool.and_self]
  · exact holds_bin_and I ρ a b

theorem holds_or {a b c : Expr} (h : a.or b = .ok c) : c.holds I ρ = (a.holds I ρ || b.holds I ρ) := by
  rw [or_eq_connect] at h
  rcases connect_cases h with ⟨ha, rfl⟩ | ⟨hb, rfl⟩ | ⟨ha | hb, rfl⟩ | ⟨rfl, rfl⟩ | rfl
  · rw [holds_of_asBool I ρ ha, Bool.false_or]
  · rw [holds_of_asBool I ρ hb, Bool.or_false]
  · rw [holds_of_asBool I ρ ha, holds_bool, Bool.not_false, Bool.true_or]
  · rw [holds_of_asBool I ρ hb, holds_bool, Bool.not_false, Bool.or_true]
  · rw [Bool.or_self]
  · exact holds_bin_or I ρ a b

theorem holds_negateAtom {e c : Expr} (h : e.negateAtom = .ok c) : c.holds I ρ = !e.holds I ρ := by
  rw [negateAtom, Checked.bind_eq_ok] at h
  obtain ⟨p, hp, h⟩ := h
  cases p with
  | some b =>
    cases h
    rw [holds_of_asBool I ρ hp, holds_bool]
  | none =>
    cases h
    exact holds_un_not I ρ e

theorem holds_negate {e c : Expr} (h : e.negate = .ok c) : c.holds I ρ = !e.holds I ρ := by
  unfold negate at h
  split at h
  · cases h
    rw [holds_un_not, Bool.not_not]
  · split at h
    · rename_i hop
      cases h
      exact holds_complement I ρ hop _ _
    · exact holds_negateAtom I ρ h
  · exact holds_negateAtom I ρ h

end Expr

namespace Cond

variable {V : Type} (I : Interpretation V) (ρ : Valuation V)

/-- A condition that is left out always holds. -/
def holds : Cond → Bool
  | none => true
  | some e => e.holds I ρ

@[simp]
theorem holds_none : Cond.holds I ρ none = true := rfl

@[simp]
theorem holds_some (e : Expr) : Cond.holds I ρ (some e) = e.holds I ρ := rfl

theorem holds_and {a b c : Cond} (h : Cond.and a b = .ok c) : holds I ρ c = (holds I ρ a && holds I ρ b) := by
  cases a with
  | none =>
    cases h
    rw [holds_none, Bool.true_and]
  | some a =>
    cases b with
    | none =>
      cases h
      rw [holds_none, Bool.and_true]
    | some b =>
      rw [Cond.and, Checked.bind_eq_ok] at h
      obtain ⟨e, he, h⟩ := h
      cases h
      exact Expr.holds_and I ρ he

theorem holds_or {a b c : Cond} (h : Cond.or a b = .ok c) : holds I ρ c = (holds I ρ a || holds I ρ b) := by
  cases a with
  | none =>
    cases h
    rw [holds_none, Bool.true_or]
  | some a =>
    cases b with
    | none =>
      cases h
      rw [holds_none, Bool.or_true]
    | some b =>
      rw [Cond.or, Checked.bind_eq_ok] at h
      obtain ⟨e, he, h⟩ := h
      cases h
      exact Expr.holds_or I ρ he

end Cond

end Sequencer
