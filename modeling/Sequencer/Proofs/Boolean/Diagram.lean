import Sequencer.Boolean.Diagram

set_option autoImplicit false

/-!
# Meaning of decision diagrams

The diagram of a formula over the atoms `0, …, n - 1` denotes the same function, and its decisions follow the order of
the atoms.
-/

namespace Sequencer

namespace Formula

variable {α : Type}

theorem eval_congr {ρ σ : α → Bool} (f : Formula α) (h : ∀ a ∈ f.atoms, ρ a = σ a) : f.eval ρ = f.eval σ := by
  induction f with
  | const b => rfl
  | atom a => exact h a (by simp [atoms])
  | not f ih =>
    rw [eval, eval, ih h]
  | and f g ihf ihg =>
    rw [eval, eval, ihf fun a ha => h a (by simp [atoms, ha]), ihg fun a ha => h a (by simp [atoms, ha])]
  | or f g ihf ihg =>
    rw [eval, eval, ihf fun a ha => h a (by simp [atoms, ha]), ihg fun a ha => h a (by simp [atoms, ha])]

theorem atoms_negated (f : Formula α) : f.negated.atoms = f.atoms := by
  cases f <;> rfl

theorem atoms_conjoined (f g : Formula α) {a : α} (h : a ∈ (f.conjoined g).atoms) : a ∈ f.atoms ∨ a ∈ g.atoms := by
  unfold conjoined at h
  split at h
  · exact .inr h
  · simp [atoms] at h
  · exact .inl h
  · simp [atoms] at h
  · exact List.mem_append.1 h

theorem atoms_disjoined (f g : Formula α) {a : α} (h : a ∈ (f.disjoined g).atoms) : a ∈ f.atoms ∨ a ∈ g.atoms := by
  unfold disjoined at h
  split at h
  · exact .inr h
  · simp [atoms] at h
  · exact .inl h
  · simp [atoms] at h
  · exact List.mem_append.1 h

/-- A fixed atom is gone, and no other one comes in. -/
theorem atoms_restrict [DecidableEq α] (f : Formula α) (x : α) (b : Bool) {a : α}
    (h : a ∈ (f.restrict x b).atoms) : a ∈ f.atoms ∧ a ≠ x := by
  induction f with
  | const c => simp [restrict, atoms] at h
  | atom a' =>
    by_cases hx : a' = x
    · simp [restrict, hx, atoms] at h
    · have ha : a = a' := by simpa [restrict, hx, atoms] using h
      exact ⟨by simp [atoms, ha], ha ▸ hx⟩
  | not f ih =>
    rw [restrict, atoms_negated] at h
    exact ih h
  | and f g ihf ihg =>
    rw [atoms, List.mem_append]
    rcases atoms_conjoined _ _ h with h | h
    · exact ⟨.inl (ihf h).1, (ihf h).2⟩
    · exact ⟨.inr (ihg h).1, (ihg h).2⟩
  | or f g ihf ihg =>
    rw [atoms, List.mem_append]
    rcases atoms_disjoined _ _ h with h | h
    · exact ⟨.inl (ihf h).1, (ihf h).2⟩
    · exact ⟨.inr (ihg h).1, (ihg h).2⟩

end Formula

namespace Diagram

/-- All decisions are on atoms from `lo` on and below `hi`, in increasing order. -/
def Within (hi : Nat) : Nat → Diagram → Prop
  | _, leaf _ => True
  | lo, branch a low high => lo ≤ a ∧ a < hi ∧ Within hi (a + 1) low ∧ Within hi (a + 1) high

theorem Within.mono {hi lo lo' : Nat} (hlo : lo ≤ lo') {d : Diagram} (h : Within hi lo' d) : Within hi lo d := by
  cases d with
  | leaf b => trivial
  | branch a low high =>
    obtain ⟨hle, hrest⟩ := h
    exact ⟨Nat.le_trans hlo hle, hrest⟩

theorem within_choose {hi lo atom : Nat} {low high : Diagram} (hlo : lo ≤ atom) (hhi : atom < hi)
    (hl : Within hi (atom + 1) low) (hh : Within hi (atom + 1) high) : Within hi lo (choose atom low high) := by
  unfold choose
  split
  · exact hl.mono (by omega)
  · exact ⟨hlo, hhi, hl, hh⟩

theorem within_ofFormulaFrom (count next : Nat) (f : Formula Nat) :
    Within (next + count) next (ofFormulaFrom count next f) := by
  fun_induction ofFormulaFrom count next f with
  | case1 => trivial
  | case2 => trivial
  | case3 count next f _ ihl ihh =>
    have hend : next + (count + 1) = next + 1 + count := by omega
    rw [hend]
    exact within_choose (Nat.le_refl _) (by omega) ihl ihh

theorem eval_ofFormulaFrom (ρ : Nat → Bool) (count next : Nat) (f : Formula Nat)
    (h : ∀ a ∈ f.atoms, next ≤ a ∧ a < next + count) : (ofFormulaFrom count next f).eval ρ = f.eval ρ := by
  fun_induction ofFormulaFrom count next f with
  | case1 => rfl
  | case2 next f =>
    refine Formula.eval_congr f ?_
    intro a ha
    have := h a ha
    omega
  | case3 count next f _ ihl ihh =>
    have hrest : ∀ b, ∀ a ∈ (f.restrict next b).atoms, next + 1 ≤ a ∧ a < next + 1 + count := by
      intro b a ha
      obtain ⟨hmem, hne⟩ := Formula.atoms_restrict f next b ha
      have := h a hmem
      omega
    rw [eval_choose, ihl (hrest false), ihh (hrest true), ← Formula.eval_restrict ρ next f]
    cases ρ next <;> rfl

end Diagram

end Sequencer
