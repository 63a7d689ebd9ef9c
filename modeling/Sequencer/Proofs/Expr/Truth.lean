import Sequencer.Proofs.Expr.Simplify

set_option autoImplicit false

/-!
# Truth of expressions

Truth values given to the parts of an expression make it true or false, with its connectives read as boolean operators.
Simplification keeps this truth value, as long as the parts are given values that fit together.
-/

namespace Sequencer

namespace Expr

/-- The truth value of an expression whose parts have the truth values `τ`. -/
def truth (τ : Expr → Bool) : Expr → Bool
  | .bin .and l r => l.truth τ && r.truth τ
  | .bin .or l r => l.truth τ || r.truth τ
  | .un .not a => !a.truth τ
  | e => τ e

theorem truth_of_not_isLogic (τ : Expr → Bool) {e : Expr} (h : e.isLogic = false) : e.truth τ = τ e := by
  unfold truth
  split
  · cases h
  · cases h
  · cases h
  · rfl

/-- Complementary comparisons have opposite truth values, and a literal of one bit is true unless it is zero. -/
structure Consistent (τ : Expr → Bool) : Prop where
  complement (op op' : BinOp) (l r : Expr) : op.complement? = some op' → τ (.bin op' l r) = !τ (.bin op l r)
  lit (l : Literal) : l.type.width = .ok 1 → τ (.lit l) = (l.val != 0)

/-- Every expression is its own value. -/
def syntactic (τ : Expr → Bool) (h : Consistent τ) : Interpretation Expr where
  truth := truth τ
  lit := .lit
  bin := .bin
  un := .un
  concat := .concat
  truth_and _ _ := rfl
  truth_or _ _ := rfl
  truth_not _ := rfl
  truth_complement op op' l r hop := by
    obtain ⟨hlogic, hlogic'⟩ := not_isLogic_of_complement hop l r
    rw [truth_of_not_isLogic τ hlogic, truth_of_not_isLogic τ hlogic', h.complement op op' l r hop]
  truth_lit l hl := h.lit l hl

mutual
theorem eval_syntactic {τ : Expr → Bool} (h : Consistent τ) : (e : Expr) → e.eval (syntactic τ h) ⟨.operand, .wire⟩ = e
  | .lit _ => rfl
  | .operand _ => rfl
  | .wire _ => rfl
  | .bin op l r => by
    rw [eval, eval_syntactic h l, eval_syntactic h r]
    rfl
  | .un op a => by
    rw [eval, eval_syntactic h a]
    rfl
  | .concat as => by
    rw [eval, evalAll_syntactic h as]
    rfl
theorem evalAll_syntactic {τ : Expr → Bool} (h : Consistent τ) : (as : List Expr) →
    evalAll (syntactic τ h) ⟨.operand, .wire⟩ as = as
  | [] => rfl
  | a :: as => by rw [evalAll, eval_syntactic h a, evalAll_syntactic h as]
end

theorem holds_syntactic {τ : Expr → Bool} (h : Consistent τ) (e : Expr) :
    e.holds (syntactic τ h) ⟨.operand, .wire⟩ = e.truth τ := by
  rw [holds, eval_syntactic h e]
  rfl

theorem truth_simplify {τ : Expr → Bool} (hτ : Consistent τ) {maxAtoms : Nat} {e e' : Expr}
    (h : e.simplify maxAtoms = .ok e') : e'.truth τ = e.truth τ := by
  rw [← holds_syntactic hτ, ← holds_syntactic hτ]
  exact holds_simplify _ _ h

/-- A literal of a type whose width is too large to be counted. -/
def Overflows (e : Expr) : Prop := ∃ l cause, e = .lit l ∧ l.type.width = .error (.aborted cause)

theorem measurable_lit {l : Literal} : (Expr.lit l).Measurable ↔ ∀ cause, l.type.width ≠ .error (.aborted cause) := by
  rw [Measurable, asBool]
  rcases l.type.width with (_ | cause) | w
  · exact iff_of_true ⟨none, rfl⟩ (by simp)
  · refine iff_of_false ?_ fun h => h cause rfl
    rintro ⟨p, hp⟩
    cases hp
  · refine iff_of_true ?_ (by simp)
    rw [Checked.accepted?, Checked.ok_bind]
    split
    · exact ⟨_, rfl⟩
    · exact ⟨_, rfl⟩

theorem measurable_iff {e : Expr} : e.Measurable ↔ ¬ e.Overflows := by
  cases e with
  | lit l =>
    rw [measurable_lit]
    constructor
    · rintro h ⟨_, cause, ⟨⟩, habort⟩
      exact h cause habort
    · intro h cause habort
      exact h ⟨l, cause, rfl, habort⟩
  | operand o => exact iff_of_true ⟨none, rfl⟩ (by rintro ⟨_, _, ⟨⟩, _⟩)
  | wire w => exact iff_of_true ⟨none, rfl⟩ (by rintro ⟨_, _, ⟨⟩, _⟩)
  | bin op l r => exact iff_of_true ⟨none, rfl⟩ (by rintro ⟨_, _, ⟨⟩, _⟩)
  | un op a => exact iff_of_true ⟨none, rfl⟩ (by rintro ⟨_, _, ⟨⟩, _⟩)
  | concat as => exact iff_of_true ⟨none, rfl⟩ (by rintro ⟨_, _, ⟨⟩, _⟩)

/-- Simplification gives a result unless a literal among the parts of a connective overflows, and the result has the
truth value of the expression. -/
theorem simplify_keeps_truth (maxAtoms : Nat) (e : Expr) :
    ((∃ e', e.simplify maxAtoms = .ok e') ↔ (e.isLogic = true → ∀ p ∈ e.parts, ¬ p.Overflows)) ∧
      ∀ e', e.simplify maxAtoms = .ok e' → ∀ τ, Consistent τ → e'.truth τ = e.truth τ := by
  refine ⟨?_, fun e' h τ hτ => truth_simplify hτ h⟩
  rw [simplify_succeeds_iff]
  exact imp_congr_right fun _ => forall₂_congr fun p _ => measurable_iff

theorem consistent_holds {V : Type} (I : Interpretation V) (ρ : Valuation V) : Consistent (holds I ρ) where
  complement _ _ l r h := holds_complement I ρ h l r
  lit l h := I.truth_lit l h

/-- A comparison, or its complement together with a flag. -/
def fallback : Expr :=
  .bin .or (.bin .ne (.flag "x") (.flag "y")) (.bin .and (.bin .eq (.flag "x") (.flag "y")) (.flag "a"))

theorem fallback_simplify : ∃ e', fallback.simplify 2 = .ok e' ∧ e'.truth (holds .integers (.allBut ["y"])) = true ∧
    e'.truth (holds .integers (.allBut ["a"])) = false := by
  obtain ⟨hreturns, hkeeps⟩ := simplify_keeps_truth 2 fallback
  obtain ⟨e', h⟩ := hreturns.2 fun _ p hp => by
    have hparts : fallback.parts = [.bin .ne (.flag "x") (.flag "y"), .bin .eq (.flag "x") (.flag "y"), .flag "a"] := rfl
    rw [hparts] at hp
    rintro ⟨l, _, rfl, _⟩
    simp [flag] at hp
  exact ⟨e', h, (hkeeps e' h _ (consistent_holds _ _)).trans (by decide),
    (hkeeps e' h _ (consistent_holds _ _)).trans (by decide)⟩

/-- A pair of fields that are too long together. -/
def overlong : DataType := ⟨.tuple, List.replicate 2 (.type .uint [.width 9223372036854775808])⟩

/-- The truth value of the literal might be left open, but reading its width aborts. -/
theorem overlong_aborts : (Expr.bin .and (literal 1 overlong) (.flag "a")).simplify 8 = .abort .addOverflow := rfl

end Expr

end Sequencer
