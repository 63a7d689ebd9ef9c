import Sequencer.Proofs.Expr.Parts

set_option autoImplicit false

/-!
# Leaves of expressions

The value of an expression depends only on its leaves: the literals, operands and wires in it. The folding connectives
add no leaves but truth values.
-/

namespace Sequencer

namespace Expr

mutual
def leaves : Expr → List Expr
  | .bin _ l r => l.leaves ++ r.leaves
  | .un _ a => a.leaves
  | .concat as => leavesAll as
  | .lit l => [.lit l]
  | .operand o => [.operand o]
  | .wire w => [.wire w]
def leavesAll : List Expr → List Expr
  | [] => []
  | a :: as => a.leaves ++ leavesAll as
end

mutual
theorem mem_wires_iff (w : Wire) : (e : Expr) → (w ∈ e.wires ↔ .wire w ∈ e.leaves)
  | .lit _ => by simp [wires, leaves]
  | .operand _ => by simp [wires, leaves]
  | .wire _ => by simp [wires, leaves]
  | .bin _ l r => by simp [wires, leaves, mem_wires_iff w l, mem_wires_iff w r]
  | .un _ a => by simp [wires, leaves, mem_wires_iff w a]
  | .concat as => by simp [wires, leaves, mem_wiresAll_iff w as]
theorem mem_wiresAll_iff (w : Wire) : (as : List Expr) → (w ∈ wiresAll as ↔ .wire w ∈ leavesAll as)
  | [] => by simp [wiresAll, leavesAll]
  | a :: as => by simp [wiresAll, leavesAll, mem_wires_iff w a, mem_wiresAll_iff w as]
end

mutual
/-- What an expression reads is what its leaves read. -/
theorem reads_eq : (e : Expr) → e.reads = e.leaves.flatMap reads
  | .lit _ => rfl
  | .operand _ => rfl
  | .wire _ => rfl
  | .bin _ l r => by rw [reads, leaves, List.flatMap_append, reads_eq l, reads_eq r]
  | .un _ a => by rw [reads, leaves, reads_eq a]
  | .concat as => by rw [reads, leaves, readsAll_eq as]
theorem readsAll_eq : (as : List Expr) → readsAll as = (leavesAll as).flatMap reads
  | [] => rfl
  | a :: as => by rw [readsAll, leavesAll, List.flatMap_append, reads_eq a, readsAll_eq as]
end

mutual
theorem substitute_self : (e : Expr) → e.substitute .operand .wire = e
  | .lit _ => rfl
  | .operand _ => rfl
  | .wire _ => rfl
  | .bin _ l r => by rw [substitute, substitute_self l, substitute_self r]
  | .un _ a => by rw [substitute, substitute_self a]
  | .concat as => by rw [substitute, substituteAll_self as]
theorem substituteAll_self : (as : List Expr) → substituteAll .operand .wire as = as
  | [] => rfl
  | a :: as => by rw [substituteAll, substitute_self a, substituteAll_self as]
end

mutual
theorem substitute_substitute (f f' : Operand → Expr) (g g' : Wire → Expr) : (e : Expr) →
    (e.substitute f g).substitute f' g' =
      e.substitute (fun o => (f o).substitute f' g') (fun w => (g w).substitute f' g')
  | .lit _ => rfl
  | .operand _ => rfl
  | .wire _ => rfl
  | .bin _ l r => by
    simp only [substitute, substitute_substitute f f' g g' l, substitute_substitute f f' g g' r]
  | .un _ a => by simp only [substitute, substitute_substitute f f' g g' a]
  | .concat as => by simp only [substitute, substituteAll_substituteAll f f' g g' as]
theorem substituteAll_substituteAll (f f' : Operand → Expr) (g g' : Wire → Expr) : (as : List Expr) →
    substituteAll f' g' (substituteAll f g as) =
      substituteAll (fun o => (f o).substitute f' g') (fun w => (g w).substitute f' g') as
  | [] => rfl
  | a :: as => by
    simp only [substituteAll, substitute_substitute f f' g g' a, substituteAll_substituteAll f f' g g' as]
end

theorem mapOperands_mapOperands (f g : Operand → Operand) (e : Expr) :
    (e.mapOperands f).mapOperands g = e.mapOperands (g ∘ f) :=
  substitute_substitute _ _ _ _ e

section Eval

variable {V : Type} (I : Interpretation V)

mutual
theorem eval_congr {ρ σ : Valuation V} : (e : Expr) → (∀ o, .operand o ∈ e.leaves → ρ.operand o = σ.operand o) →
    (∀ w, .wire w ∈ e.leaves → ρ.wire w = σ.wire w) → e.eval I ρ = e.eval I σ
  | .lit _, _, _ => rfl
  | .operand o, ho, _ => ho o (by simp [leaves])
  | .wire w, _, hw => hw w (by simp [leaves])
  | .bin op l r, ho, hw => by
    rw [eval, eval,
      eval_congr l (fun o h => ho o (by simp [leaves, h])) (fun w h => hw w (by simp [leaves, h])),
      eval_congr r (fun o h => ho o (by simp [leaves, h])) (fun w h => hw w (by simp [leaves, h]))]
  | .un op a, ho, hw => by rw [eval, eval, eval_congr a ho hw]
  | .concat as, ho, hw => by rw [eval, eval, evalAll_congr as ho hw]
theorem evalAll_congr {ρ σ : Valuation V} : (as : List Expr) →
    (∀ o, .operand o ∈ leavesAll as → ρ.operand o = σ.operand o) →
    (∀ w, .wire w ∈ leavesAll as → ρ.wire w = σ.wire w) → evalAll I ρ as = evalAll I σ as
  | [], _, _ => rfl
  | a :: as, ho, hw => by
    rw [evalAll, evalAll,
      eval_congr a (fun o h => ho o (by simp [leavesAll, h])) (fun w h => hw w (by simp [leavesAll, h])),
      evalAll_congr as (fun o h => ho o (by simp [leavesAll, h])) (fun w h => hw w (by simp [leavesAll, h]))]
end

mutual
/-- A substitution acts on the value through the values of what it puts in. -/
theorem eval_substitute (ρ : Valuation V) (f : Operand → Expr) (g : Wire → Expr) : (e : Expr) →
    (e.substitute f g).eval I ρ = e.eval I ⟨fun o => (f o).eval I ρ, fun w => (g w).eval I ρ⟩
  | .lit _ => rfl
  | .operand _ => rfl
  | .wire _ => rfl
  | .bin _ l r => by rw [substitute, eval, eval, eval_substitute ρ f g l, eval_substitute ρ f g r]
  | .un _ a => by rw [substitute, eval, eval, eval_substitute ρ f g a]
  | .concat as => by rw [substitute, eval, eval, evalAll_substitute ρ f g as]
theorem evalAll_substitute (ρ : Valuation V) (f : Operand → Expr) (g : Wire → Expr) : (as : List Expr) →
    evalAll I ρ (substituteAll f g as) = evalAll I ⟨fun o => (f o).eval I ρ, fun w => (g w).eval I ρ⟩ as
  | [] => rfl
  | a :: as => by rw [substituteAll, evalAll, evalAll, eval_substitute ρ f g a, evalAll_substitute ρ f g as]
end

end Eval

mutual
theorem leaves_substitute (f : Operand → Expr) (g : Wire → Expr) : (e : Expr) →
    (e.substitute f g).leaves = e.leaves.flatMap fun x => (x.substitute f g).leaves
  | .lit _ => rfl
  | .operand _ => by simp [leaves]
  | .wire _ => by simp [leaves]
  | .bin _ l r => by
    rw [substitute, leaves, leaves, List.flatMap_append, leaves_substitute f g l, leaves_substitute f g r]
  | .un _ a => by rw [substitute, leaves, leaves, leaves_substitute f g a]
  | .concat as => by rw [substitute, leaves, leaves, leavesAll_substitute f g as]
theorem leavesAll_substitute (f : Operand → Expr) (g : Wire → Expr) : (as : List Expr) →
    leavesAll (substituteAll f g as) = (leavesAll as).flatMap fun x => (x.substitute f g).leaves
  | [] => rfl
  | a :: as => by
    rw [substituteAll, leavesAll, leavesAll, List.flatMap_append, leaves_substitute f g a, leavesAll_substitute f g as]
end

mutual
theorem mem_leaves_substitute (f : Operand → Expr) (g : Wire → Expr) (x : Expr) : (e : Expr) →
    x ∈ (e.substitute f g).leaves →
      (∃ l, x = .lit l ∧ x ∈ e.leaves) ∨ (∃ o, .operand o ∈ e.leaves ∧ x ∈ (f o).leaves) ∨ ∃ w, .wire w ∈ e.leaves ∧ x ∈ (g w).leaves
  | .lit l, h => .inl ⟨l, by simpa [substitute, leaves] using h, h⟩
  | .operand o, h => .inr (.inl ⟨o, by simp [leaves], h⟩)
  | .wire w, h => .inr (.inr ⟨w, by simp [leaves], h⟩)
  | .bin _ l r, h => by
    simp only [substitute, leaves, List.mem_append] at h ⊢
    rcases h with h | h
    · rcases mem_leaves_substitute f g x l h with ⟨m, hm, h⟩ | ⟨o, ho, h⟩ | ⟨w, hw, h⟩
      · exact .inl ⟨m, hm, .inl h⟩
      · exact .inr (.inl ⟨o, .inl ho, h⟩)
      · exact .inr (.inr ⟨w, .inl hw, h⟩)
    · rcases mem_leaves_substitute f g x r h with ⟨m, hm, h⟩ | ⟨o, ho, h⟩ | ⟨w, hw, h⟩
      · exact .inl ⟨m, hm, .inr h⟩
      · exact .inr (.inl ⟨o, .inr ho, h⟩)
      · exact .inr (.inr ⟨w, .inr hw, h⟩)
  | .un _ a, h => mem_leaves_substitute f g x a h
  | .concat as, h => mem_leavesAll_substitute f g x as h
theorem mem_leavesAll_substitute (f : Operand → Expr) (g : Wire → Expr) (x : Expr) : (as : List Expr) →
    x ∈ leavesAll (substituteAll f g as) →
      (∃ l, x = .lit l ∧ x ∈ leavesAll as) ∨ (∃ o, .operand o ∈ leavesAll as ∧ x ∈ (f o).leaves) ∨
        ∃ w, .wire w ∈ leavesAll as ∧ x ∈ (g w).leaves
  | [], h => absurd h List.not_mem_nil
  | a :: as, h => by
    simp only [substituteAll, leavesAll, List.mem_append] at h ⊢
    rcases h with h | h
    · rcases mem_leaves_substitute f g x a h with ⟨m, hm, h⟩ | ⟨o, ho, h⟩ | ⟨w, hw, h⟩
      · exact .inl ⟨m, hm, .inl h⟩
      · exact .inr (.inl ⟨o, .inl ho, h⟩)
      · exact .inr (.inr ⟨w, .inl hw, h⟩)
    · rcases mem_leavesAll_substitute f g x as h with ⟨m, hm, h⟩ | ⟨o, ho, h⟩ | ⟨w, hw, h⟩
      · exact .inl ⟨m, hm, .inr h⟩
      · exact .inr (.inl ⟨o, .inr ho, h⟩)
      · exact .inr (.inr ⟨w, .inr hw, h⟩)
end

/-- A leaf is a literal, an operand or a wire. -/
theorem mem_leaves_cases {x e : Expr} (h : x ∈ e.leaves) :
    (∃ l, x = .lit l) ∨ (∃ o, x = .operand o) ∨ ∃ w, x = .wire w := by
  rw [← e.substitute_self] at h
  rcases mem_leaves_substitute _ _ x e h with ⟨l, rfl, _⟩ | ⟨o, _, hx⟩ | ⟨w, _, hx⟩
  · exact .inl ⟨l, rfl⟩
  · exact .inr (.inl ⟨o, List.mem_singleton.1 hx⟩)
  · exact .inr (.inr ⟨w, List.mem_singleton.1 hx⟩)

/-- Every leaf has a property. -/
def LeavesSatisfy (P : Expr → Prop) (e : Expr) : Prop := ∀ x ∈ e.leaves, P x

section Folding

variable {P : Expr → Prop}

theorem LeavesSatisfy.bin (op : BinOp) {l r : Expr} (hl : l.LeavesSatisfy P) (hr : r.LeavesSatisfy P) :
    (Expr.bin op l r).LeavesSatisfy P := by
  intro x hx
  rcases List.mem_append.1 hx with hx | hx
  · exact hl x hx
  · exact hr x hx

theorem partRule_leaves (hP : ∀ b, P (Expr.bool b)) : PartRule (LeavesSatisfy P) where
  bool b _ hx := List.mem_singleton.1 hx ▸ hP b
  complement _ h := h

theorem leavesSatisfy_iff_parts {e : Expr} : e.LeavesSatisfy P ↔ e.PartsSatisfy (LeavesSatisfy P) := by
  fun_induction parts e with
  | case1 l r ihl ihr =>
    rw [partsSatisfy_and, ← ihl, ← ihr]
    exact List.forall_mem_append
  | case2 l r ihl ihr =>
    rw [partsSatisfy_or, ← ihl, ← ihr]
    exact List.forall_mem_append
  | case3 a ih => exact ih
  | case4 e hand hor hnot => exact (partsSatisfy_of_not_isLogic (isLogic_eq_false hand hor hnot)).symm

theorem LeavesSatisfy.bool (h : ∀ b, P (Expr.bool b)) (b : Bool) : (Expr.bool b).LeavesSatisfy P := (partRule_leaves h).bool b

theorem LeavesSatisfy.and (hP : ∀ b, P (Expr.bool b)) {a b c : Expr} (ha : a.LeavesSatisfy P)
    (hb : b.LeavesSatisfy P) (h : a.and b = .ok c) : c.LeavesSatisfy P := by
  rw [leavesSatisfy_iff_parts] at ha hb ⊢
  exact ha.and (partRule_leaves hP) hb h

theorem LeavesSatisfy.or (hP : ∀ b, P (Expr.bool b)) {a b c : Expr} (ha : a.LeavesSatisfy P)
    (hb : b.LeavesSatisfy P) (h : a.or b = .ok c) : c.LeavesSatisfy P := by
  rw [leavesSatisfy_iff_parts] at ha hb ⊢
  exact ha.or (partRule_leaves hP) hb h

theorem LeavesSatisfy.negate (hP : ∀ b, P (Expr.bool b)) {e c : Expr} (he : e.LeavesSatisfy P)
    (h : e.negate = .ok c) : c.LeavesSatisfy P := by
  rw [leavesSatisfy_iff_parts] at he ⊢
  exact he.negate (partRule_leaves hP) h

end Folding

/-- Reads none of the signals. -/
def Avoids (T : List String) (e : Expr) : Prop := ∀ n ∈ e.reads, n ∉ T

instance (T : List String) (e : Expr) : Decidable (e.Avoids T) := inferInstanceAs (Decidable (∀ n ∈ e.reads, n ∉ T))

theorem avoids_iff {T : List String} {e : Expr} : e.Avoids T ↔ e.LeavesSatisfy (Avoids T) := by
  rw [Avoids, reads_eq]
  constructor
  · intro h x hx n hn
    exact h n (List.mem_flatMap.2 ⟨x, hx, hn⟩)
  · intro h n hn
    obtain ⟨x, hx, hn⟩ := List.mem_flatMap.1 hn
    exact h x hx n hn

theorem avoids_lit (T : List String) (l : Literal) : (Expr.lit l).Avoids T := by
  intro n hn
  cases hn


end Expr

end Sequencer
