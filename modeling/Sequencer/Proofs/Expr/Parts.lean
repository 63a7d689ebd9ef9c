import Sequencer.Proofs.Expr.Interpretation

set_option autoImplicit false

/-!
# Parts of expressions

The parts of an expression are what its connectives connect. The folding connectives only bring in truth values, and
exchange comparisons for their complements.
-/

namespace Sequencer

namespace Expr

/-- The largest parts of an expression that are no connectives, in reading order. -/
def parts : Expr → List Expr
  | .bin .and l r => l.parts ++ r.parts
  | .bin .or l r => l.parts ++ r.parts
  | .un .not a => a.parts
  | e => [e]

theorem parts_of_not_isLogic {e : Expr} (h : e.isLogic = false) : e.parts = [e] := by
  unfold parts
  split
  · cases h
  · cases h
  · cases h
  · rfl

theorem isLogic_eq_false {e : Expr} (hand : ∀ l r, e = .bin .and l r → False) (hor : ∀ l r, e = .bin .or l r → False)
    (hnot : ∀ a, e = .un .not a → False) : e.isLogic = false := by
  unfold isLogic
  split
  · exact absurd rfl (hand _ _)
  · exact absurd rfl (hor _ _)
  · exact absurd rfl (hnot _)
  · rfl

theorem not_isLogic_of_complement {op op' : BinOp} (h : op.complement? = some op') (l r : Expr) :
    (Expr.bin op l r).isLogic = false ∧ (Expr.bin op' l r).isLogic = false := by
  cases op with
  | eq | ne | lt | ge | gt | le =>
    cases h
    exact ⟨rfl, rfl⟩
  | _ => cases h

/-- Every part has a property. -/
def PartsSatisfy (P : Expr → Prop) (e : Expr) : Prop := ∀ p ∈ e.parts, P p

/-- A property of truth values, and of the complement of a comparison that has it. -/
structure PartRule (P : Expr → Prop) : Prop where
  bool (b : Bool) : P (Expr.bool b)
  complement {op op' : BinOp} {l r : Expr} : op.complement? = some op' → P (.bin op l r) → P (.bin op' l r)

variable {P : Expr → Prop} {e a b c : Expr}

theorem partsSatisfy_of_not_isLogic (h : e.isLogic = false) : e.PartsSatisfy P ↔ P e := by
  rw [PartsSatisfy, parts_of_not_isLogic h, List.forall_mem_singleton]

theorem partsSatisfy_and : (Expr.bin .and a b).PartsSatisfy P ↔ a.PartsSatisfy P ∧ b.PartsSatisfy P := by
  simp only [PartsSatisfy, parts, List.forall_mem_append]

theorem partsSatisfy_or : (Expr.bin .or a b).PartsSatisfy P ↔ a.PartsSatisfy P ∧ b.PartsSatisfy P := by
  simp only [PartsSatisfy, parts, List.forall_mem_append]

theorem partsSatisfy_not : (Expr.un .not a).PartsSatisfy P ↔ a.PartsSatisfy P := Iff.rfl

namespace PartsSatisfy

variable (hP : PartRule P)

include hP

theorem bool (b : Bool) : (Expr.bool b).PartsSatisfy P := (partsSatisfy_of_not_isLogic rfl).2 (hP.bool b)

theorem connect (ha : a.PartsSatisfy P) (hb : b.PartsSatisfy P) {op : BinOp} (hop : (Expr.bin op a b).PartsSatisfy P)
    {unit : Bool} (h : Expr.connect op unit a b = .ok c) : c.PartsSatisfy P := by
  rcases connect_cases h with ⟨_, rfl⟩ | ⟨_, rfl⟩ | ⟨_, rfl⟩ | ⟨_, rfl⟩ | rfl
  · exact hb
  · exact ha
  · exact .bool hP _
  · exact ha
  · exact hop

theorem and (ha : a.PartsSatisfy P) (hb : b.PartsSatisfy P) (h : a.and b = .ok c) : c.PartsSatisfy P :=
  .connect hP ha hb (partsSatisfy_and.2 ⟨ha, hb⟩) h

theorem or (ha : a.PartsSatisfy P) (hb : b.PartsSatisfy P) (h : a.or b = .ok c) : c.PartsSatisfy P :=
  .connect hP ha hb (partsSatisfy_or.2 ⟨ha, hb⟩) h

theorem negateAtom (he : e.PartsSatisfy P) (h : e.negateAtom = .ok c) : c.PartsSatisfy P := by
  rw [Expr.negateAtom, Checked.bind_eq_ok] at h
  obtain ⟨p, _, h⟩ := h
  cases p with
  | some b =>
    cases h
    exact .bool hP _
  | none =>
    cases h
    exact partsSatisfy_not.2 he

theorem negate (he : e.PartsSatisfy P) (h : e.negate = .ok c) : c.PartsSatisfy P := by
  unfold Expr.negate at h
  split at h
  · cases h
    exact partsSatisfy_not.1 he
  · rename_i op l r
    split at h
    · rename_i op' hop
      cases h
      obtain ⟨hlogic, hlogic'⟩ := not_isLogic_of_complement hop l r
      exact (partsSatisfy_of_not_isLogic hlogic').2 (hP.complement hop ((partsSatisfy_of_not_isLogic hlogic).1 he))
    · exact he.negateAtom hP h
  · exact he.negateAtom hP h

end PartsSatisfy

end Expr

end Sequencer
