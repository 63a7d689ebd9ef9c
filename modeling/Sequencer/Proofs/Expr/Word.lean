import Mathlib.Algebra.Group.Nat.Defs
import Sequencer.Proofs.Expr.Interpretation

set_option autoImplicit false

/-!
# Words

A value has finitely many bits: arithmetic drops what does not fit, and so does a literal. Numbers that fit the width of
their type are still told apart.
-/

namespace Sequencer

structure Word where
  width : Nat
  bits : BitVec width

namespace Word

def toNat (v : Word) : Nat := v.bits.toNat

/-- A word of one bit. -/
def ofBool (b : Bool) : Word := ⟨1, .ofBool b⟩

def truth (v : Word) : Bool := v.toNat != 0

@[simp]
theorem truth_ofBool (b : Bool) : (ofBool b).truth = b := by cases b <;> rfl

/-- A literal of one bit is a truth value, and one whose width is unknown has no bits. -/
def ofLiteral (l : Literal) : Word :=
  match l.type.width with
  | .ok w => if w = 1 then ofBool (l.val != 0) else ⟨w, .ofInt w l.val⟩
  | .error _ => ⟨0, 0⟩

/-- Both words are brought to the larger of their widths. -/
def align (f : (w : Nat) → BitVec w → BitVec w → BitVec w) (a b : Word) : Word :=
  ⟨max a.width b.width, f _ (a.bits.setWidth _) (b.bits.setWidth _)⟩

def append (a b : Word) : Word := ⟨a.width + b.width, a.bits ++ b.bits⟩

theorem toNat_ofLiteral {w : UInt64} {n : Nat} (hn : n < 2 ^ w.toNat) : (ofLiteral ⟨n, .uint w⟩).toNat = n := by
  have hwidth : (DataType.uint w).width = .ok w.toNat := rfl
  simp only [ofLiteral, hwidth]
  split
  · -- A number that fits in one bit is its own truth value.
    rename_i hone
    rw [hone] at hn
    have hn : n = 0 ∨ n = 1 := by omega
    rcases hn with rfl | rfl <;> rfl
  · simpa [toNat] using Nat.mod_eq_of_lt hn

end Word

namespace Interpretation

/-- Numbers that fit the width of their type are compared by value. -/
def ComparesNumbers {V : Type} (I : Interpretation V) : Prop :=
  ∀ (w : UInt64) (m n : Nat), m < 2 ^ w.toNat → n < 2 ^ w.toNat →
    I.truth (I.bin .eq (I.lit ⟨m, .uint w⟩) (I.lit ⟨n, .uint w⟩)) = decide (m = n)

/-- Values are unsigned words. -/
def words : Interpretation Word where
  truth := Word.truth
  lit := Word.ofLiteral
  bin op a b :=
    match op with
    | .and => .ofBool (a.truth && b.truth)
    | .or => .ofBool (a.truth || b.truth)
    | .xor => .ofBool (a.truth != b.truth)
    | .add => .align (fun _ x y => x + y) a b
    | .sub => .align (fun _ x y => x - y) a b
    | .mul => .align (fun _ x y => x * y) a b
    | .bitAnd => .align (fun _ x y => x &&& y) a b
    | .bitOr => .align (fun _ x y => x ||| y) a b
    | .eq => .ofBool (a.toNat == b.toNat)
    | .ne => .ofBool (a.toNat != b.toNat)
    | .lt => .ofBool (a.toNat < b.toNat)
    | .ge => .ofBool (b.toNat ≤ a.toNat)
    | .gt => .ofBool (b.toNat < a.toNat)
    | .le => .ofBool (a.toNat ≤ b.toNat)
    | .shl => ⟨a.width, a.bits <<< b.toNat⟩
    | .shr => ⟨a.width, a.bits >>> b.toNat⟩
  un op a :=
    match op with
    | .not => .ofBool !a.truth
    | .invert => ⟨a.width, ~~~a.bits⟩
    | .neg => ⟨a.width, -a.bits⟩
  concat vs := vs.foldr Word.append ⟨0, 0⟩
  truth_and _ _ := Word.truth_ofBool _
  truth_or _ _ := Word.truth_ofBool _
  truth_not _ := Word.truth_ofBool _
  truth_complement op op' a b h := by
    cases op with
    | eq | ne | lt | ge | gt | le =>
      cases h
      rw [Word.truth_ofBool, Word.truth_ofBool]
      simp [bne, ← decide_not]
    | _ => cases h
  truth_lit l hl := by simp [Word.ofLiteral, hl]

theorem words_comparesNumbers : words.ComparesNumbers := by
  intro w m n hm hn
  change (Word.ofBool ((Word.ofLiteral _).toNat == (Word.ofLiteral _).toNat)).truth = _
  rw [Word.truth_ofBool, Word.toNat_ofLiteral hm, Word.toNat_ofLiteral hn]
  rfl

end Interpretation

end Sequencer
