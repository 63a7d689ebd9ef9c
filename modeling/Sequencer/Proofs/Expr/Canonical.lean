import Mathlib.Data.List.Dedup
import Sequencer.Proofs.Boolean.Canonical
import Sequencer.Proofs.Expr.Truth

set_option autoImplicit false

/-!
# Simplified expressions are canonical

Connectives that have the same truth value whatever the truth values of their atoms are simplified to the same
expression, in which only atoms occur that matter.
-/

namespace Sequencer

namespace Formula

variable {α β γ : Type}

theorem map_congr {h h' : α → β} (f : Formula α) (hatoms : ∀ a ∈ f.atoms, h a = h' a) : f.map h = f.map h' := by
  induction f with
  | const b => rfl
  | atom a => exact congrArg atom (hatoms a (List.mem_singleton_self a))
  | not f ih => exact congrArg not (ih hatoms)
  | and f g ihf ihg =>
    obtain ⟨hf, hg⟩ := List.forall_mem_append.1 hatoms
    exact congrArg₂ and (ihf hf) (ihg hg)
  | or f g ihf ihg =>
    obtain ⟨hf, hg⟩ := List.forall_mem_append.1 hatoms
    exact congrArg₂ or (ihf hf) (ihg hg)

theorem map_map (h : α → β) (g : β → γ) (f : Formula α) : (f.map h).map g = f.map (g ∘ h) := by
  induction f with
  | const b => rfl
  | atom a => rfl
  | not f ih => exact congrArg not ih
  | and f f' ih ih' => exact congrArg₂ and ih ih'
  | or f f' ih ih' => exact congrArg₂ or ih ih'

/-- The minimal formula over the atoms of a list, in the order of the list. -/
def minimizeOver (A : List Expr) (f : Formula Expr) : Formula Expr :=
  ((f.map A.idxOf).minimize A.length).map fun i => A.getD i default

theorem minimizeOver_congr (A : List Expr) {f g : Formula Expr} (h : ∀ σ, f.eval σ = g.eval σ) :
    f.minimizeOver A = g.minimizeOver A := by
  rw [minimizeOver, minimizeOver, minimize_congr A.length fun ρ => ?_]
  rw [eval_map, eval_map, h]

theorem mem_of_mem_minimizeOver {A : List Expr} {f : Formula Expr} {a : Expr} (h : a ∈ (f.minimizeOver A).atoms) : a ∈ A := by
  rw [minimizeOver, atoms_map, List.mem_map] at h
  obtain ⟨i, hi, rfl⟩ := h
  have hlt := lt_of_mem_minimize hi
  rw [List.getD_eq_getElem?_getD, List.getElem?_eq_getElem hlt]
  exact List.getElem_mem hlt

/-- A further atom that does not occur makes no difference. -/
theorem minimizeOver_cons {P A : List Expr} {x : Expr} {f : Formula Expr} (hx : x ∉ f.atoms) :
    f.minimizeOver (P ++ x :: A) = f.minimizeOver (P ++ A) := by
  have hindex : f.map (P ++ x :: A).idxOf = (f.map (P ++ A).idxOf).map (skip P.length) := by
    rw [map_map]
    refine map_congr f fun a ha => ?_
    have hne : x ≠ a := fun hxa => hx (hxa ▸ ha)
    rw [Function.comp_apply]
    by_cases hP : a ∈ P
    · rw [List.idxOf_append_of_mem hP, List.idxOf_append_of_mem hP, skip_of_lt (List.idxOf_lt_length_of_mem hP)]
    · rw [List.idxOf_append_of_notMem hP, List.idxOf_append_of_notMem hP, skip_of_le (Nat.le_add_right _ _),
        List.idxOf_cons_ne _ hne, Nat.add_assoc]
  have hget : ∀ i, (P ++ x :: A).getD (skip P.length i) default = (P ++ A).getD i default := by
    intro i
    rw [List.getD_eq_getElem?_getD, List.getD_eq_getElem?_getD]
    rcases Nat.lt_or_ge i P.length with hi | hi
    · rw [skip_of_lt hi, List.getElem?_append_left hi, List.getElem?_append_left hi]
    · rw [skip_of_le hi, List.getElem?_append_right hi, List.getElem?_append_right (by omega), Nat.sub_add_comm hi,
        List.getElem?_cons_succ]
  have hlength : (P ++ x :: A).length = (P ++ A).length + 1 := by
    simp only [List.length_append, List.length_cons]
    omega
  rw [minimizeOver, minimizeOver, hindex, hlength, minimize_skip (by simp), map_map]
  exact map_congr _ fun i _ => hget i

theorem minimizeOver_sublist {A B : List Expr} (hsub : A.Sublist B) {P : List Expr} (hnodup : (P ++ B).Nodup)
    {f : Formula Expr} (hf : ∀ a ∈ f.atoms, a ∈ P ++ A) : f.minimizeOver (P ++ B) = f.minimizeOver (P ++ A) := by
  -- the atoms that both lists have are moved to `P` one by one
  induction hsub generalizing P with
  | slnil => rfl
  | @cons A B x hsub ih =>
    have hrest : (P ++ B).Nodup := hnodup.sublist ((List.sublist_cons_self x B).append_left P)
    have hatoms : ∀ a ∈ f.atoms, a ∈ P ++ B := fun a ha => (hsub.append_left P).subset (hf a ha)
    have hx : x ∉ f.atoms := fun hx => (List.nodup_middle.1 hnodup).notMem (hatoms x hx)
    rw [minimizeOver_cons hx]
    exact ih hrest hf
  | @cons_cons A B x hsub ih =>
    rw [List.append_cons] at hnodup ⊢
    rw [List.append_cons P x A] at hf ⊢
    exact ih hnodup hf

end Formula

namespace Expr

open Formula

/-- The minimal formula of the function that a formula denotes, over its atoms in order. -/
def canonical (f : Formula Expr) : Formula Expr := f.minimizeOver (sortDistinct f.atoms)

theorem mem_of_mem_canonical {f : Formula Expr} {a : Expr} (h : a ∈ (canonical f).atoms) : a ∈ f.atoms :=
  (mem_sortDistinct a f.atoms).1 (mem_of_mem_minimizeOver h)

theorem canonical_congr {f g : Formula Expr} (h : ∀ σ, f.eval σ = g.eval σ) : canonical f = canonical g := by
  have hjoint : ∀ {f' : Formula Expr} {as : List Expr}, f'.atoms ⊆ as → canonical f' = f'.minimizeOver (sortDistinct as) := by
    intro f' as has
    refine (minimizeOver_sublist (sortDistinct_sublist has) (P := []) (sortDistinct_nodup as) fun a ha => ?_).symm
    exact (mem_sortDistinct a _).2 ha
  rw [hjoint (List.subset_append_left f.atoms g.atoms), hjoint (List.subset_append_right f.atoms g.atoms)]
  exact minimizeOver_congr _ h

/-- Some change of the value of `a` alone changes the value of the formula. -/
theorem depends_of_mem_canonical {f : Formula Expr} {a : Expr} (h : a ∈ (canonical f).atoms) :
    ∃ σ, f.eval (Function.update σ a true) ≠ f.eval (Function.update σ a false) := by
  by_contra hnot
  push Not at hnot
  -- otherwise `a` may be fixed, and then it does not occur
  have hfixed : ∀ σ, f.eval σ = (f.restrict a false).eval σ := by
    intro σ
    rw [eval_restrict_eq]
    cases ha : σ a with
    | false => rw [← ha, Function.update_eq_self]
    | true => rw [← hnot, ← ha, Function.update_eq_self]
  rw [canonical_congr hfixed] at h
  exact (atoms_restrict f a false (mem_of_mem_canonical h)).2 rfl

theorem canonical_const (b : Bool) : canonical (.const b) = .const b := by
  have hnil : sortDistinct [] = [] := List.eq_nil_iff_forall_not_mem.2 fun e he => by
    cases (mem_sortDistinct e []).1 he
  rw [canonical, atoms, hnil]
  cases b <;> rfl

/-- The comparison that stands for both of a complementary pair. -/
def base : Expr → Expr
  | .bin .ne l r => .bin .eq l r
  | .bin .ge l r => .bin .lt l r
  | .bin .le l r => .bin .gt l r
  | e => e

/-- Whether an expression is a literal of one bit. -/
def isConstant : Expr → Bool
  | .lit l => l.type.width.toOption == some 1
  | _ => false

/-- What a boolean expression is about: its parts, without truth values and without telling complements apart. -/
def atoms (e : Expr) : List Expr := (e.parts.filter fun p => !p.isConstant).map base

/-- The truth of the expression changes with that of the atom alone. -/
def DependsOn (e a : Expr) : Prop :=
  ∃ τ τ', Consistent τ ∧ Consistent τ' ∧ (∀ b, b.base ≠ a → τ b = τ' b) ∧ e.truth τ ≠ e.truth τ'

theorem base_complement {op op' : BinOp} (h : op.complement? = some op') (l r : Expr) :
    (Expr.bin op' l r).base = (Expr.bin op l r).base := by
  cases op with
  | eq | ne | lt | ge | gt | le =>
    cases h
    rfl
  | _ => cases h

theorem isConstant_lit {l : Literal} : (Expr.lit l).isConstant = true ↔ l.type.width = .ok 1 := by
  rw [isConstant]
  cases l.type.width with
  | ok w => simp [Except.toOption]
  | error e => simp [Except.toOption]

/-- An expression that stands for itself as an atom. -/
structure IsAtom (a : Expr) : Prop where
  logic : a.isLogic = false
  constant : a.isConstant = false
  base : a.base = a

theorem not_isLogic_of_mem_parts {e p : Expr} (h : p ∈ e.parts) : p.isLogic = false := by
  fun_induction parts e with
  | case1 l r ihl ihr =>
    rcases List.mem_append.1 h with h | h
    · exact ihl h
    · exact ihr h
  | case2 l r ihl ihr =>
    rcases List.mem_append.1 h with h | h
    · exact ihl h
    · exact ihr h
  | case3 a ih => exact ih h
  | case4 e hand hor hnot => exact List.mem_singleton.1 h ▸ isLogic_eq_false hand hor hnot

theorem base_base (e : Expr) : e.base.base = e.base := by
  cases e with
  | bin op l r => cases op <;> rfl
  | _ => rfl

theorem base_eq_self {e : Expr} (hne : ∀ l r, e = .bin .ne l r → False) (hge : ∀ l r, e = .bin .ge l r → False)
    (hle : ∀ l r, e = .bin .le l r → False) : e.base = e := by
  unfold base
  split
  · exact absurd rfl (hne _ _)
  · exact absurd rfl (hge _ _)
  · exact absurd rfl (hle _ _)
  · rfl

theorem isLogic_base (e : Expr) : e.base.isLogic = e.isLogic := by
  cases e with
  | bin op l r => cases op <;> rfl
  | _ => rfl

theorem isConstant_base (e : Expr) : e.base.isConstant = e.isConstant := by
  cases e with
  | bin op l r => cases op <;> rfl
  | _ => rfl

theorem isAtom_of_mem_atoms {e a : Expr} (h : a ∈ e.atoms) : a.IsAtom := by
  rw [atoms, List.mem_map] at h
  obtain ⟨p, hp, rfl⟩ := h
  obtain ⟨hp, hconstant⟩ := List.mem_filter.1 hp
  refine ⟨?_, ?_, base_base p⟩
  · rw [isLogic_base]
    exact not_isLogic_of_mem_parts hp
  · rw [isConstant_base]
    simpa using hconstant

/-- Only literals of one bit have a truth value of their own. -/
theorem isConstant_of_asBool {e : Expr} {p : Option Bool} (h : e.asBool = .ok p) : e.isConstant = p.isSome := by
  cases e with
  | lit l =>
    rw [asBool] at h
    rw [isConstant]
    cases hw : l.type.width with
    | ok w =>
      rw [hw, Checked.accepted?, Checked.ok_bind] at h
      split at h
      · rename_i hone
        cases h
        cases hone
        rfl
      · rename_i hne
        cases h
        have hne : w ≠ 1 := fun hw => hne (congrArg some hw)
        simp [Except.toOption, hne]
    | error e =>
      rw [hw] at h
      cases e with
      | rejected c =>
        cases h
        rfl
      | aborted c => cases h
  | _ =>
    cases h
    rfl

theorem atoms_atomSkeleton {e : Expr} {f : Formula Expr} (hlogic : e.isLogic = false) (h : e.atomSkeleton = .ok f) :
    f.atoms = e.atoms := by
  rw [atoms, parts_of_not_isLogic hlogic]
  unfold atomSkeleton at h
  obtain ⟨p, hp, h⟩ := Checked.bind_eq_ok.1 h
  have hconstant := isConstant_of_asBool hp
  cases p with
  | some b =>
    cases h
    simp [hconstant, Formula.atoms]
  | none =>
    rw [List.filter_singleton, hconstant]
    dsimp only at h
    split at h
    · cases h
      rfl
    · cases h
      rfl
    · cases h
      rfl
    · rename_i hne hge hle
      cases h
      exact congrArg ([·]) (base_eq_self hne hge hle).symm

theorem atoms_skeleton {e : Expr} {f : Formula Expr} (h : e.skeleton = .ok f) : f.atoms = e.atoms := by
  fun_induction skeleton e generalizing f with
  | case1 l r ihl ihr =>
    obtain ⟨fl, hl, h⟩ := Checked.bind_eq_ok.1 h
    obtain ⟨fr, hr, h⟩ := Checked.bind_eq_ok.1 h
    cases h
    simp only [Formula.atoms, ihl hl, ihr hr, atoms, parts, List.filter_append, List.map_append]
  | case2 l r ihl ihr =>
    obtain ⟨fl, hl, h⟩ := Checked.bind_eq_ok.1 h
    obtain ⟨fr, hr, h⟩ := Checked.bind_eq_ok.1 h
    cases h
    simp only [Formula.atoms, ihl hl, ihr hr, atoms, parts, List.filter_append, List.map_append]
  | case3 a ih =>
    obtain ⟨fa, ha, h⟩ := Checked.bind_eq_ok.1 h
    cases h
    rw [Formula.atoms, ih ha]
    rfl
  | case4 e hand hor hnot => exact atoms_atomSkeleton (isLogic_eq_false hand hor hnot) h

/-- Truth values of atoms, extended to all expressions. -/
def extend (σ : Expr → Bool) : Expr → Bool
  | .lit l => if (Expr.lit l).isConstant then l.val != 0 else σ (.lit l)
  | e => if e.base = e then σ e else !σ e.base

theorem consistent_extend (σ : Expr → Bool) : Consistent (extend σ) where
  complement op op' l r h := by
    cases op with
    | eq | ne | lt | ge | gt | le =>
      cases h
      simp [extend, base]
    | _ => cases h
  lit l h := by rw [extend, if_pos (isConstant_lit.2 h)]

theorem extend_of_isAtom (σ : Expr → Bool) {a : Expr} (h : a.IsAtom) : extend σ a = σ a := by
  unfold extend
  split
  · rw [if_neg (by simp [h.constant])]
  · rw [if_pos h.base]

/-- Away from an atom and its complement, the extension does not depend on the value of the atom. -/
theorem extend_update (σ : Expr → Bool) {a : Expr} (v w : Bool) {b : Expr} (h : b.base ≠ a) :
    extend (Function.update σ a v) b = extend (Function.update σ a w) b := by
  unfold extend
  split
  · rename_i l
    have hl : Expr.lit l ≠ a := h
    rw [Function.update_of_ne hl, Function.update_of_ne hl]
  · split
    · rename_i hbase
      rw [← hbase, Function.update_of_ne h, Function.update_of_ne h]
    · rw [Function.update_of_ne h, Function.update_of_ne h]

/-- The skeleton has the truth value of the expression, for values of the atoms that fit together. -/
theorem eval_skeleton_truth {e : Expr} {f : Formula Expr} (h : e.skeleton = .ok f) {τ : Expr → Bool} (hτ : Consistent τ) :
    f.eval τ = e.truth τ := by
  have heval := eval_skeleton (syntactic τ hτ) ⟨.operand, .wire⟩ h
  rw [holds_syntactic] at heval
  rw [← heval]
  refine Formula.eval_congr f fun a ha => ?_
  rw [holds_syntactic, truth_of_not_isLogic τ (isAtom_of_mem_atoms (atoms_skeleton h ▸ ha)).logic]

/-- Any values of the atoms give the skeleton the truth value of the expression, once they are extended. -/
theorem truth_extend {e : Expr} {f : Formula Expr} (h : e.skeleton = .ok f) (σ : Expr → Bool) :
    e.truth (extend σ) = f.eval σ := by
  rw [← eval_skeleton_truth h (consistent_extend σ)]
  refine Formula.eval_congr f fun a ha => ?_
  exact extend_of_isAtom σ (isAtom_of_mem_atoms (atoms_skeleton h ▸ ha))

theorem canonical_eq_of_truth {e e' : Expr} {f f' : Formula Expr} (h : e.skeleton = .ok f) (h' : e'.skeleton = .ok f')
    (htruth : ∀ τ, Consistent τ → e.truth τ = e'.truth τ) : canonical f = canonical f' := by
  refine canonical_congr fun σ => ?_
  rw [← truth_extend h, ← truth_extend h', htruth _ (consistent_extend σ)]

theorem length_sortDistinct (es : List Expr) : (sortDistinct es).length = es.dedup.length := by
  refine ((List.perm_ext_iff_of_nodup (sortDistinct_nodup es) (List.nodup_dedup es)).2 fun e => ?_).length_eq
  rw [mem_sortDistinct, List.mem_dedup]

theorem simplify_eq_canonical {maxAtoms : Nat} {e : Expr} {f : Formula Expr} (hlogic : e.isLogic = true)
    (h : e.skeleton = .ok f) (hcount : e.atoms.dedup.length ≤ maxAtoms) :
    e.simplify maxAtoms = ofFormula (canonical f) := by
  rw [← length_sortDistinct, ← atoms_skeleton h] at hcount
  rw [simplify, hlogic, if_neg (by simp), h, Checked.ok_bind]
  dsimp only
  rw [if_neg (Nat.not_lt.2 hcount)]
  rfl

theorem partRule_base (S : List Expr) : PartRule fun p => p.isConstant = true ∨ p.base ∈ S where
  bool b := .inl (by cases b <;> rfl)
  complement hop h := by
    rw [base_complement hop]
    exact h.imp_left fun hconstant => by cases hconstant

/-- Only atoms of the canonical formula occur in the expression that is built from it. -/
theorem atoms_subset_of_ofFormula {f : Formula Expr} (hatoms : ∀ a ∈ f.atoms, a.IsAtom) {e : Expr}
    (h : ofFormula f = .ok e) : e.atoms ⊆ f.atoms := by
  have hparts : e.PartsSatisfy fun p => p.isConstant = true ∨ p.base ∈ f.atoms := by
    refine .ofFormula (partRule_base f.atoms) (fun a ha => ?_) h
    have hatom := hatoms a ha
    exact (partsSatisfy_of_not_isLogic hatom.logic).2 (.inr (hatom.base.symm ▸ ha))
  intro a ha
  rw [atoms, List.mem_map] at ha
  obtain ⟨p, hp, rfl⟩ := ha
  obtain ⟨hp, hconstant⟩ := List.mem_filter.1 hp
  rcases hparts p hp with hp | hp
  · rw [hp] at hconstant
    cases hconstant
  · exact hp

variable {maxAtoms : Nat} {e e' : Expr}

/-- The atoms of a simplified expression come from the canonical formula. -/
theorem atoms_subset_canonical {f : Formula Expr} (h : e.skeleton = .ok f) (he' : ofFormula (canonical f) = .ok e') :
    e'.atoms ⊆ (canonical f).atoms := by
  refine atoms_subset_of_ofFormula (fun a ha => ?_) he'
  exact isAtom_of_mem_atoms (atoms_skeleton h ▸ mem_of_mem_canonical ha)

theorem dependsOn_of_mem_atoms {f : Formula Expr} (h : e.skeleton = .ok f) (he' : ofFormula (canonical f) = .ok e')
    {a : Expr} (ha : a ∈ e'.atoms) : e.DependsOn a := by
  obtain ⟨σ, hσ⟩ := depends_of_mem_canonical (atoms_subset_canonical h he' ha)
  refine ⟨_, _, consistent_extend _, consistent_extend _, fun b hb => extend_update σ true false hb, ?_⟩
  rw [truth_extend h, truth_extend h]
  exact hσ

theorem simplify_of_constant_truth (hlogic : e.isLogic = true) (hread : e.PartsSatisfy Measurable)
    (hcount : e.atoms.dedup.length ≤ maxAtoms) {b : Bool} (htruth : ∀ τ, Consistent τ → e.truth τ = b) :
    e.simplify maxAtoms = .ok (.bool b) := by
  obtain ⟨f, hf⟩ := skeleton_succeeds_iff.2 hread
  have hconst : canonical f = canonical (.const b) := by
    refine canonical_congr fun σ => ?_
    rw [← truth_extend hf, htruth _ (consistent_extend σ)]
    rfl
  rw [simplify_eq_canonical hlogic hf hcount, hconst, canonical_const]
  rfl

theorem simplify_simplify (h : e.simplify maxAtoms = .ok e') : e'.simplify maxAtoms = .ok e' := by
  cases hlogic' : e'.isLogic with
  | false =>
    rw [simplify, hlogic']
    rfl
  | true =>
    have htruth : ∀ τ, Consistent τ → e'.truth τ = e.truth τ := fun τ hτ => truth_simplify hτ h
    have hself := h
    rw [simplify] at h
    split at h
    · cases h
      exact hself
    · rename_i hlogic
      have hlogic : e.isLogic = true := by simpa using hlogic
      obtain ⟨f, hf, h⟩ := Checked.bind_eq_ok.1 h
      dsimp only at h
      split at h
      · cases h
        exact hself
      · rename_i hcount
        have hread : e.PartsSatisfy Measurable := skeleton_succeeds_iff.1 ⟨f, hf⟩
        obtain ⟨f', hf'⟩ := skeleton_succeeds_iff.2 (hread.simplify partRule_measurable hself)
        have he' : ofFormula (canonical f) = .ok e' := h
        have hsubset : e'.atoms ⊆ f.atoms :=
          fun a ha => mem_of_mem_canonical (atoms_subset_canonical hf he' ha)
        have hcount' : e'.atoms.dedup.length ≤ maxAtoms := by
          rw [← length_sortDistinct]
          exact Nat.le_trans (sortDistinct_sublist hsubset).length_le (Nat.not_lt.1 hcount)
        rw [simplify_eq_canonical hlogic' hf' hcount', canonical_eq_of_truth hf' hf htruth]
        exact he'

/-- Two connectives of the same truth are simplified to one expression, whose atoms all matter. A connective that is
always true or always false becomes a truth value, and to simplify a second time changes nothing. -/
theorem simplify_canonical (maxAtoms : Nat) :
    (∀ e₁ e₂ : Expr, e₁.isLogic = true → e₂.isLogic = true → (∀ p ∈ e₁.parts ++ e₂.parts, ¬ p.Overflows) →
      e₁.atoms.dedup.length ≤ maxAtoms → e₂.atoms.dedup.length ≤ maxAtoms →
      (∀ τ, Consistent τ → e₁.truth τ = e₂.truth τ) →
        ∃ e', e₁.simplify maxAtoms = .ok e' ∧ e₂.simplify maxAtoms = .ok e' ∧ (∀ a ∈ e'.atoms, e₁.DependsOn a) ∧
          ∀ b, (∀ τ, Consistent τ → e₁.truth τ = b) → e' = .bool b) ∧
      ∀ e e' : Expr, e.simplify maxAtoms = .ok e' → e'.simplify maxAtoms = .ok e' := by
  refine ⟨fun e₁ e₂ hlogic₁ hlogic₂ hread hcount₁ hcount₂ htruth => ?_, fun e e' h => simplify_simplify h⟩
  obtain ⟨hread₁, hread₂⟩ := List.forall_mem_append.1 hread
  have hparts₁ : e₁.PartsSatisfy Measurable := fun p hp => measurable_iff.2 (hread₁ p hp)
  have hparts₂ : e₂.PartsSatisfy Measurable := fun p hp => measurable_iff.2 (hread₂ p hp)
  obtain ⟨f₁, hf₁⟩ := skeleton_succeeds_iff.2 hparts₁
  obtain ⟨f₂, hf₂⟩ := skeleton_succeeds_iff.2 hparts₂
  obtain ⟨e', he'⟩ := (simplify_succeeds_iff maxAtoms).2 fun _ => hparts₁
  have hsame : e₁.simplify maxAtoms = e₂.simplify maxAtoms := by
    rw [simplify_eq_canonical hlogic₁ hf₁ hcount₁, simplify_eq_canonical hlogic₂ hf₂ hcount₂,
      canonical_eq_of_truth hf₁ hf₂ htruth]
  refine ⟨e', he', hsame ▸ he', fun a ha => ?_, fun b hb => ?_⟩
  · exact dependsOn_of_mem_atoms hf₁ (simplify_eq_canonical hlogic₁ hf₁ hcount₁ ▸ he') ha
  · rw [simplify_of_constant_truth hlogic₁ hparts₁ hcount₁ hb] at he'
    exact (Except.ok.inj he').symm

/-- One flag, whatever the other one is. -/
def eitherWay : Expr :=
  .bin .or (.bin .and (.flag "a") (.flag "b")) (.bin .and (.un .not (.flag "b")) (.flag "a"))

def twiceNegated : Expr := .un .not (.un .not (.flag "a"))

theorem eitherWay_simplify : ∃ e', eitherWay.simplify 2 = .ok e' ∧ twiceNegated.simplify 2 = .ok e' ∧
    e'.atoms ⊆ [.flag "a"] ∧ e'.simplify 2 = .ok e' := by
  have htruth : ∀ τ, eitherWay.truth τ = τ (.flag "a") := by
    intro τ
    change (τ (.flag "a") && τ (.flag "b") || !τ (.flag "b") && τ (.flag "a")) = τ (.flag "a")
    cases τ (.flag "a") <;> cases τ (.flag "b") <;> rfl
  obtain ⟨hcanonical, hagain⟩ := simplify_canonical 2
  obtain ⟨e', h, h', hdepends, _⟩ := hcanonical eitherWay twiceNegated rfl rfl (by
    have hparts : eitherWay.parts ++ twiceNegated.parts =
        [.flag "a", .flag "b", .flag "b", .flag "a", .flag "a"] := rfl
    rw [hparts]
    rintro p hp ⟨l, _, rfl, _⟩
    simp [flag] at hp) (by decide) (by decide) fun τ _ => (htruth τ).trans (Bool.not_not _).symm
  refine ⟨e', h, h', fun x hx => ?_, hagain _ _ h⟩
  obtain ⟨τ, τ', _, _, hagree, hne⟩ := hdepends x hx
  rw [htruth, htruth] at hne
  by_contra hxa
  exact hne (hagree (.flag "a") fun hbase => hxa (List.mem_singleton.2 hbase.symm))

/-- A literal or its negation is true whatever the literal is, but is not simplified. -/
theorem overlong_excluded_middle : (∀ τ, (Expr.bin .or (literal 1 overlong) (.un .not (literal 1 overlong))).truth τ = true) ∧
    ∀ maxAtoms, (Expr.bin .or (literal 1 overlong) (.un .not (literal 1 overlong))).simplify maxAtoms =
      .abort .addOverflow :=
  ⟨fun _ => Bool.or_not_self _, fun _ => rfl⟩

end Expr

end Sequencer
