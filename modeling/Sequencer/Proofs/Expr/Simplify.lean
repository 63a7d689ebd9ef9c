import Sequencer.Expr.Simplify
import Sequencer.Proofs.Boolean.Cover
import Sequencer.Proofs.Expr.Leaves
import Sequencer.Proofs.Expr.Spelling

set_option autoImplicit false

/-!
# Simplification keeps the truth value

An expression and its simplified form are true under the same valuations, and simplification adds no leaves but truth
values. It gives a result unless the width of a literal overflows.
-/

namespace Sequencer

theorem Formula.atoms_map {α β : Type} (h : α → β) (f : Formula α) : (f.map h).atoms = f.atoms.map h := by
  induction f with
  | const b => rfl
  | atom a => rfl
  | not f ih => exact ih
  | and f g ihf ihg => rw [map, atoms, ihf, ihg, atoms, List.map_append]
  | or f g ihf ihg => rw [map, atoms, ihf, ihg, atoms, List.map_append]

namespace Expr

section Truth

variable {V : Type} (I : Interpretation V) (ρ : Valuation V)

theorem eval_atomSkeleton {e : Expr} {f : Formula Expr} (h : e.atomSkeleton = .ok f) :
    f.eval (holds I ρ) = e.holds I ρ := by
  unfold atomSkeleton at h
  rw [Checked.bind_eq_ok] at h
  obtain ⟨p, hp, h⟩ := h
  cases p with
  | some b =>
    cases h
    exact (holds_of_asBool I ρ hp).symm
  | none =>
    dsimp only at h
    split at h
    · cases h
      exact (holds_complement I ρ rfl _ _).symm
    · cases h
      exact (holds_complement I ρ rfl _ _).symm
    · cases h
      exact (holds_complement I ρ rfl _ _).symm
    · cases h
      rfl

theorem eval_skeleton {e : Expr} {f : Formula Expr} (h : e.skeleton = .ok f) : f.eval (holds I ρ) = e.holds I ρ := by
  fun_induction skeleton e generalizing f with
  | case1 l r ihl ihr =>
    rw [Checked.bind_eq_ok] at h
    obtain ⟨fl, hl, h⟩ := h
    rw [Checked.bind_eq_ok] at h
    obtain ⟨fr, hr, h⟩ := h
    cases h
    rw [Formula.eval, ihl hl, ihr hr, holds_bin_and]
  | case2 l r ihl ihr =>
    rw [Checked.bind_eq_ok] at h
    obtain ⟨fl, hl, h⟩ := h
    rw [Checked.bind_eq_ok] at h
    obtain ⟨fr, hr, h⟩ := h
    cases h
    rw [Formula.eval, ihl hl, ihr hr, holds_bin_or]
  | case3 a ih =>
    rw [Checked.bind_eq_ok] at h
    obtain ⟨fa, ha, h⟩ := h
    cases h
    rw [Formula.eval, ih ha, holds_un_not]
  | case4 e => exact eval_atomSkeleton I ρ h

theorem holds_ofFormula {f : Formula Expr} {e : Expr} (h : ofFormula f = .ok e) :
    e.holds I ρ = f.eval (holds I ρ) := by
  induction f generalizing e with
  | const b =>
    cases h
    exact holds_bool I ρ b
  | atom a =>
    cases h
    rfl
  | not f ih =>
    rw [ofFormula, Checked.bind_eq_ok] at h
    obtain ⟨a, ha, h⟩ := h
    rw [holds_negate I ρ h, ih ha, Formula.eval]
  | and f g ihf ihg =>
    rw [ofFormula, Checked.bind_eq_ok] at h
    obtain ⟨a, ha, h⟩ := h
    rw [Checked.bind_eq_ok] at h
    obtain ⟨b, hb, h⟩ := h
    rw [holds_and I ρ h, ihf ha, ihg hb, Formula.eval]
  | or f g ihf ihg =>
    rw [ofFormula, Checked.bind_eq_ok] at h
    obtain ⟨a, ha, h⟩ := h
    rw [Checked.bind_eq_ok] at h
    obtain ⟨b, hb, h⟩ := h
    rw [holds_or I ρ h, ihf ha, ihg hb, Formula.eval]

end Truth

/-- Numbering the atoms of a formula, minimizing, and putting the atoms back keeps the function denoted. -/
theorem eval_minimize_atoms (τ : Expr → Bool) (f : Formula Expr) :
    (((f.map (sortDistinct f.atoms).idxOf).minimize (sortDistinct f.atoms).length).map
      fun i => (sortDistinct f.atoms).getD i default).eval τ = f.eval τ := by
  have hmem : ∀ a ∈ f.atoms, a ∈ sortDistinct f.atoms := fun a ha => (mem_sortDistinct a _).2 ha
  have hbound : ∀ i ∈ (f.map (sortDistinct f.atoms).idxOf).atoms, i < (sortDistinct f.atoms).length := by
    intro i hi
    rw [Formula.atoms_map] at hi
    obtain ⟨a, ha, rfl⟩ := List.mem_map.1 hi
    exact List.idxOf_lt_length_of_mem (hmem a ha)
  rw [Formula.eval_map, Formula.eval_minimize _ _ _ hbound, Formula.eval_map]
  refine Formula.eval_congr f ?_
  intro a ha
  have hlt := List.idxOf_lt_length_of_mem (hmem a ha)
  simp only [Function.comp_apply]
  rw [List.getD_eq_getElem?_getD, List.getElem?_eq_getElem hlt, Option.getD_some, List.getElem_idxOf]

theorem holds_simplify {V : Type} (I : Interpretation V) (ρ : Valuation V) {maxAtoms : Nat} {e e' : Expr}
    (h : e.simplify maxAtoms = .ok e') : e'.holds I ρ = e.holds I ρ := by
  rw [simplify] at h
  split at h
  · cases h
    rfl
  · rw [Checked.bind_eq_ok] at h
    obtain ⟨f, hf, h⟩ := h
    dsimp only at h
    split at h
    · cases h
      rfl
    · rw [holds_ofFormula I ρ h, eval_minimize_atoms, eval_skeleton I ρ hf]

section Parts

variable {P : Expr → Prop} {e e' : Expr} {f : Formula Expr} (hP : PartRule P)

include hP

theorem PartsSatisfy.atomSkeleton (he : e.PartsSatisfy P) (hlogic : e.isLogic = false) (h : e.atomSkeleton = .ok f) :
    ∀ a ∈ f.atoms, a.PartsSatisfy P := by
  rw [partsSatisfy_of_not_isLogic hlogic] at he
  unfold Expr.atomSkeleton at h
  obtain ⟨p, _, h⟩ := Checked.bind_eq_ok.1 h
  cases p with
  | some b =>
    cases h
    simp [Formula.atoms]
  | none =>
    dsimp only at h
    split at h
    · cases h
      exact List.forall_mem_singleton.2 ((partsSatisfy_of_not_isLogic rfl).2 (hP.complement rfl he))
    · cases h
      exact List.forall_mem_singleton.2 ((partsSatisfy_of_not_isLogic rfl).2 (hP.complement rfl he))
    · cases h
      exact List.forall_mem_singleton.2 ((partsSatisfy_of_not_isLogic rfl).2 (hP.complement rfl he))
    · cases h
      exact List.forall_mem_singleton.2 ((partsSatisfy_of_not_isLogic hlogic).2 he)

theorem PartsSatisfy.skeleton (he : e.PartsSatisfy P) (h : e.skeleton = .ok f) : ∀ a ∈ f.atoms, a.PartsSatisfy P := by
  fun_induction Expr.skeleton e generalizing f with
  | case1 l r ihl ihr =>
    obtain ⟨hl, hr⟩ := partsSatisfy_and.1 he
    obtain ⟨fl, hfl, h⟩ := Checked.bind_eq_ok.1 h
    obtain ⟨fr, hfr, h⟩ := Checked.bind_eq_ok.1 h
    cases h
    exact List.forall_mem_append.2 ⟨ihl hl hfl, ihr hr hfr⟩
  | case2 l r ihl ihr =>
    obtain ⟨hl, hr⟩ := partsSatisfy_or.1 he
    obtain ⟨fl, hfl, h⟩ := Checked.bind_eq_ok.1 h
    obtain ⟨fr, hfr, h⟩ := Checked.bind_eq_ok.1 h
    cases h
    exact List.forall_mem_append.2 ⟨ihl hl hfl, ihr hr hfr⟩
  | case3 a ih =>
    obtain ⟨fa, hfa, h⟩ := Checked.bind_eq_ok.1 h
    cases h
    intro x hx
    exact ih he hfa x hx
  | case4 e hand hor hnot => exact he.atomSkeleton hP (isLogic_eq_false hand hor hnot) h

theorem PartsSatisfy.ofFormula (hf : ∀ a ∈ f.atoms, a.PartsSatisfy P) (h : Expr.ofFormula f = .ok e) :
    e.PartsSatisfy P := by
  induction f generalizing e with
  | const b =>
    cases h
    exact .bool hP b
  | atom a =>
    cases h
    exact hf a (by simp [Formula.atoms])
  | not f ih =>
    rw [Expr.ofFormula, Checked.bind_eq_ok] at h
    obtain ⟨a, ha, h⟩ := h
    exact (ih hf ha).negate hP h
  | and f g ihf ihg =>
    rw [Expr.ofFormula, Checked.bind_eq_ok] at h
    obtain ⟨a, ha, h⟩ := h
    rw [Checked.bind_eq_ok] at h
    obtain ⟨b, hb, h⟩ := h
    exact (ihf (fun x hx => hf x (List.mem_append_left _ hx)) ha).and hP
      (ihg (fun x hx => hf x (List.mem_append_right _ hx)) hb) h
  | or f g ihf ihg =>
    rw [Expr.ofFormula, Checked.bind_eq_ok] at h
    obtain ⟨a, ha, h⟩ := h
    rw [Checked.bind_eq_ok] at h
    obtain ⟨b, hb, h⟩ := h
    exact (ihf (fun x hx => hf x (List.mem_append_left _ hx)) ha).or hP
      (ihg (fun x hx => hf x (List.mem_append_right _ hx)) hb) h

theorem PartsSatisfy.getD_sortDistinct {as : List Expr} (has : ∀ a ∈ as, a.PartsSatisfy P) (i : Nat) :
    ((sortDistinct as).getD i default).PartsSatisfy P := by
  rw [List.getD_eq_getElem?_getD]
  cases hi : (sortDistinct as)[i]? with
  | none => exact .bool hP false
  | some a => exact has a ((mem_sortDistinct a as).1 (List.mem_of_getElem? hi))

/-- The atoms of a minimized formula come from the atoms of the formula. -/
theorem PartsSatisfy.minimize (hf : ∀ a ∈ f.atoms, a.PartsSatisfy P) : ∀ a ∈ (((f.map (sortDistinct f.atoms).idxOf).minimize
    (sortDistinct f.atoms).length).map fun i => (sortDistinct f.atoms).getD i default).atoms, a.PartsSatisfy P := by
  intro a ha
  rw [Formula.atoms_map] at ha
  obtain ⟨i, _, rfl⟩ := List.mem_map.1 ha
  exact .getD_sortDistinct hP hf i

theorem PartsSatisfy.simplify {maxAtoms : Nat} (he : e.PartsSatisfy P) (h : e.simplify maxAtoms = .ok e') :
    e'.PartsSatisfy P := by
  rw [Expr.simplify] at h
  split at h
  · cases h
    exact he
  · rw [Checked.bind_eq_ok] at h
    obtain ⟨f, hf, h⟩ := h
    dsimp only at h
    split at h
    · cases h
      exact he
    · exact .ofFormula hP (.minimize hP (he.skeleton hP hf)) h

end Parts

theorem LeavesSatisfy.simplify {P : Expr → Prop} (hP : ∀ b, P (Expr.bool b)) {maxAtoms : Nat} {e e' : Expr}
    (he : e.LeavesSatisfy P) (h : e.simplify maxAtoms = .ok e') : e'.LeavesSatisfy P := by
  rw [leavesSatisfy_iff_parts] at he ⊢
  exact he.simplify (partRule_leaves hP) h

/-- The width of a literal can be read or is refused, so that its truth value is known or known to be missing. -/
def Measurable (e : Expr) : Prop := ∃ p, e.asBool = .ok p

theorem measurable_bool (b : Bool) : (bool b).Measurable := ⟨some b, by cases b <;> rfl⟩

section Success

variable {e a b : Expr}

theorem LeavesSatisfy.measurable (he : e.LeavesSatisfy Measurable) : e.Measurable := by
  cases e with
  | lit l => exact he (.lit l) (by simp [leaves])
  | operand o => exact ⟨none, rfl⟩
  | wire w => exact ⟨none, rfl⟩
  | bin op l r => exact ⟨none, rfl⟩
  | un op a => exact ⟨none, rfl⟩
  | concat as => exact ⟨none, rfl⟩

theorem partRule_measurable : PartRule Measurable where
  bool := measurable_bool
  complement _ _ := ⟨none, rfl⟩

theorem PartsSatisfy.measurable (he : e.PartsSatisfy Measurable) : e.Measurable := by
  cases e with
  | lit l => exact (partsSatisfy_of_not_isLogic rfl).1 he
  | operand o => exact ⟨none, rfl⟩
  | wire w => exact ⟨none, rfl⟩
  | bin op l r => exact ⟨none, rfl⟩
  | un op a => exact ⟨none, rfl⟩
  | concat as => exact ⟨none, rfl⟩

theorem connect_succeeds (ha : a.Measurable) (hb : b.Measurable) (op : BinOp) (unit : Bool) :
    ∃ c, connect op unit a b = .ok c := by
  obtain ⟨p, hp⟩ := ha
  obtain ⟨q, hq⟩ := hb
  rw [connect, hp, hq, Checked.ok_bind, Checked.ok_bind]
  split_ifs <;> exact ⟨_, rfl⟩

theorem and_succeeds (ha : a.Measurable) (hb : b.Measurable) : ∃ c, a.and b = .ok c := connect_succeeds ha hb _ _

/-- If the left side has no truth value of its own, then a conjunction is made unless the right side overflows. -/
theorem and_succeeds_iff (ha : a.asBool = .ok none) : (∃ c, a.and b = .ok c) ↔ b.Measurable := by
  constructor
  · rintro ⟨c, h⟩
    rw [Expr.and, ha, Checked.ok_bind, if_neg (by simp), Checked.bind_eq_ok] at h
    obtain ⟨q, hq, _⟩ := h
    exact ⟨q, hq⟩
  · exact and_succeeds ⟨none, ha⟩

theorem or_succeeds (ha : a.Measurable) (hb : b.Measurable) : ∃ c, a.or b = .ok c := connect_succeeds ha hb _ _

theorem negateAtom_succeeds (he : e.Measurable) : ∃ c, e.negateAtom = .ok c := by
  obtain ⟨p, hp⟩ := he
  rw [Expr.negateAtom, hp, Checked.ok_bind]
  cases p with
  | some b => exact ⟨_, rfl⟩
  | none => exact ⟨_, rfl⟩

theorem negate_succeeds (he : e.Measurable) : ∃ c, e.negate = .ok c := by
  unfold Expr.negate
  split
  · exact ⟨_, rfl⟩
  · split
    · exact ⟨_, rfl⟩
    · exact negateAtom_succeeds he
  · exact negateAtom_succeeds he

theorem atomSkeleton_succeeds (he : e.Measurable) : ∃ f, e.atomSkeleton = .ok f := by
  obtain ⟨p, hp⟩ := he
  unfold Expr.atomSkeleton
  rw [hp, Checked.ok_bind]
  cases p with
  | some b => exact ⟨_, rfl⟩
  | none =>
    dsimp only
    split
    all_goals exact ⟨_, rfl⟩

/-- The skeleton is there exactly if the width of no literal among the parts overflows. -/
theorem skeleton_succeeds_iff : (∃ f, e.skeleton = .ok f) ↔ e.PartsSatisfy Measurable := by
  fun_induction Expr.skeleton e with
  | case1 l r ihl ihr =>
    rw [partsSatisfy_and, ← ihl, ← ihr]
    exact Checked.exists_ok_bind_bind_iff _
  | case2 l r ihl ihr =>
    rw [partsSatisfy_or, ← ihl, ← ihr]
    exact Checked.exists_ok_bind_bind_iff _
  | case3 a ih =>
    refine Iff.trans ⟨?_, ?_⟩ ih
    · rintro ⟨f, h⟩
      obtain ⟨fa, ha, _⟩ := Checked.bind_eq_ok.1 h
      exact ⟨fa, ha⟩
    · rintro ⟨fa, ha⟩
      rw [ha]
      exact ⟨_, rfl⟩
  | case4 e hand hor hnot =>
    rw [partsSatisfy_of_not_isLogic (isLogic_eq_false hand hor hnot)]
    refine ⟨?_, atomSkeleton_succeeds⟩
    rintro ⟨f, h⟩
    unfold Expr.atomSkeleton at h
    obtain ⟨p, hp, _⟩ := Checked.bind_eq_ok.1 h
    exact ⟨p, hp⟩

theorem ofFormula_succeeds {f : Formula Expr} (hf : ∀ a ∈ f.atoms, a.PartsSatisfy Measurable) :
    ∃ e, ofFormula f = .ok e := by
  induction f with
  | const b => exact ⟨_, rfl⟩
  | atom a => exact ⟨_, rfl⟩
  | not f ih =>
    have hf' : ∀ a ∈ f.atoms, a.PartsSatisfy Measurable := hf
    obtain ⟨a, ha⟩ := ih hf'
    rw [ofFormula, ha, Checked.ok_bind]
    exact negate_succeeds (PartsSatisfy.ofFormula partRule_measurable hf' ha).measurable
  | and f g ihf ihg =>
    obtain ⟨hf', hg'⟩ := List.forall_mem_append.1 hf
    obtain ⟨a, ha⟩ := ihf hf'
    obtain ⟨b, hb⟩ := ihg hg'
    rw [ofFormula, ha, hb, Checked.ok_bind, Checked.ok_bind]
    exact and_succeeds (PartsSatisfy.ofFormula partRule_measurable hf' ha).measurable
      (PartsSatisfy.ofFormula partRule_measurable hg' hb).measurable
  | or f g ihf ihg =>
    obtain ⟨hf', hg'⟩ := List.forall_mem_append.1 hf
    obtain ⟨a, ha⟩ := ihf hf'
    obtain ⟨b, hb⟩ := ihg hg'
    rw [ofFormula, ha, hb, Checked.ok_bind, Checked.ok_bind]
    exact or_succeeds (PartsSatisfy.ofFormula partRule_measurable hf' ha).measurable
      (PartsSatisfy.ofFormula partRule_measurable hg' hb).measurable

/-- Only a connective is looked into, and then the widths of the literals among its parts are read. -/
theorem simplify_succeeds_iff (maxAtoms : Nat) :
    (∃ e', e.simplify maxAtoms = .ok e') ↔ (e.isLogic = true → e.PartsSatisfy Measurable) := by
  cases hlogic : e.isLogic with
  | false =>
    rw [simplify, hlogic]
    exact iff_of_true ⟨e, rfl⟩ (by simp)
  | true =>
    rw [simplify, hlogic, ← skeleton_succeeds_iff]
    constructor
    · rintro ⟨e', h⟩ _
      obtain ⟨f, hf, _⟩ := Checked.bind_eq_ok.1 h
      exact ⟨f, hf⟩
    · intro h
      obtain ⟨f, hf⟩ := h rfl
      have hparts := skeleton_succeeds_iff.1 ⟨f, hf⟩
      rw [if_neg (by simp), hf, Checked.ok_bind]
      dsimp only
      split
      · exact ⟨_, rfl⟩
      · exact ofFormula_succeeds (.minimize partRule_measurable (hparts.skeleton partRule_measurable hf))

end Success

end Expr

theorem Cond.and_succeeds_iff {a b : Cond} (ha : ∀ e ∈ a, e.asBool = .ok none) :
    (∃ c, Cond.and a b = .ok c) ↔ (a ≠ none → ∀ g ∈ b, g.Measurable) := by
  cases a with
  | none => exact iff_of_true ⟨b, rfl⟩ (by simp)
  | some e =>
    cases b with
    | none => exact iff_of_true ⟨some e, rfl⟩ (by simp)
    | some g =>
      have hand : (∃ c, Cond.and (some e) (some g) = .ok c) ↔ ∃ c, e.and g = .ok c := by
        constructor
        · rintro ⟨c, h⟩
          obtain ⟨x, hx, _⟩ := Checked.bind_eq_ok.1 h
          exact ⟨x, hx⟩
        · rintro ⟨x, hx⟩
          exact ⟨some x, Checked.bind_eq_ok.2 ⟨x, hx, rfl⟩⟩
      rw [hand, Expr.and_succeeds_iff (ha e rfl)]
      simp

end Sequencer
