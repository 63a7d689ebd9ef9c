import Sequencer.Proofs.Condition.Exit
import Sequencer.Proofs.Condition.Leaves
import Sequencer.Proofs.Expr.Truth

set_option autoImplicit false

/-!
# Folding keeps truth

The connectives that drop constants and repeats give a result unless a literal overflows. Its truth value is the one that
the connective has, also over lists, where a condition that is left out counts as true.
-/

namespace Sequencer

open Checked

namespace Expr

variable {a b : Expr}

theorem Measurable.connect (ha : a.Measurable) (hb : b.Measurable) (op : BinOp) (unit : Bool) :
    Meets True (connect op unit a b) Measurable where
  succeeds _ := connect_succeeds ha hb op unit
  result c hc := by
    rcases connect_cases hc with ⟨_, rfl⟩ | ⟨_, rfl⟩ | ⟨_, rfl⟩ | ⟨_, rfl⟩ | rfl
    · exact hb
    · exact ha
    · exact measurable_bool _
    · exact ha
    · exact ⟨none, rfl⟩

theorem Measurable.and (ha : a.Measurable) (hb : b.Measurable) : Meets True (a.and b) Measurable := ha.connect hb _ _

theorem Measurable.or (ha : a.Measurable) (hb : b.Measurable) : Meets True (a.or b) Measurable := ha.connect hb _ _

theorem any_succeeds {es : List Expr} (hes : ∀ e ∈ es, e.Measurable) : ∃ e, any es = .ok e := by
  cases es with
  | nil => exact ⟨_, rfl⟩
  | cons e es =>
    obtain ⟨he, hes⟩ := List.forall_mem_cons.1 hes
    have hfold : Meets True (es.foldlM Expr.or e) Measurable := .foldlM (fun _ ha b hb => ha.or (hes b hb)) he
    exact hfold.succeeds trivial

end Expr

namespace Cond

/-- The condition is left out, or its width can be read or is refused. -/
def Measurable (c : Cond) : Prop := ∀ e ∈ c, e.Measurable

theorem measurable_none : Cond.Measurable none := fun _ he => absurd he (by simp)

theorem measurable_some {e : Expr} (he : e.Measurable) : Cond.Measurable (some e) := by
  intro e' he'
  cases he'
  exact he

variable {a b : Cond}

theorem Measurable.and (ha : a.Measurable) (hb : b.Measurable) : Meets True (Cond.and a b) Cond.Measurable := by
  cases a with
  | none => exact .ok rfl hb
  | some x =>
    cases b with
    | none => exact .ok rfl ha
    | some y => exact ((ha x rfl).and (hb y rfl)).bind fun z hz => .ok rfl (measurable_some hz)

theorem Measurable.or (ha : a.Measurable) (hb : b.Measurable) : Meets True (Cond.or a b) Cond.Measurable := by
  cases a with
  | none => exact .ok rfl measurable_none
  | some x =>
    cases b with
    | none => exact .ok rfl measurable_none
    | some y => exact ((ha x rfl).or (hb y rfl)).bind fun z hz => .ok rfl (measurable_some hz)

theorem all_succeeds {cs : List Cond} (hcs : ∀ c ∈ cs, Cond.Measurable c) : ∃ c, Cond.all cs = .ok c := by
  have hfold : Meets True (Cond.all cs) Cond.Measurable :=
    .foldlM (fun _ ha b hb => Measurable.and ha (hcs b hb)) measurable_none
  exact hfold.succeeds trivial

theorem measurable_of_not_overflows {c : Cond} (h : ∀ e ∈ c, ¬ e.Overflows) : c.Measurable :=
  fun e he => Expr.measurable_iff.2 (h e he)

end Cond

/-- The folding connectives are homomorphisms to truth values. -/
theorem folding_computes_truth {V : Type} (I : Interpretation V) (ρ : Valuation V) :
    (∀ a b : Expr, ¬ a.Overflows → ¬ b.Overflows →
      (∃ c, a.and b = .ok c ∧ c.holds I ρ = (a.holds I ρ && b.holds I ρ)) ∧
      (∃ c, a.or b = .ok c ∧ c.holds I ρ = (a.holds I ρ || b.holds I ρ)) ∧
      ∃ c, a.negate = .ok c ∧ c.holds I ρ = !a.holds I ρ) ∧
    (∀ a b : Cond, (∀ e ∈ a, ¬ e.Overflows) → (∀ e ∈ b, ¬ e.Overflows) →
      (∃ c, Cond.and a b = .ok c ∧ c.holds I ρ = (a.holds I ρ && b.holds I ρ)) ∧
      ∃ c, Cond.or a b = .ok c ∧ c.holds I ρ = (a.holds I ρ || b.holds I ρ)) ∧
    (∀ cs : List Cond, (∀ c ∈ cs, ∀ e ∈ c, ¬ e.Overflows) →
      ∃ c, Cond.all cs = .ok c ∧ c.holds I ρ = cs.all (Cond.holds I ρ)) ∧
    ∀ es : List Expr, (∀ e ∈ es, ¬ e.Overflows) →
      ∃ e, Expr.any es = .ok e ∧ e.holds I ρ = es.any (Expr.holds I ρ) := by
  refine ⟨fun a b ha hb => ?_, fun a b ha hb => ?_, fun cs hcs => ?_, fun es hes => ?_⟩
  · rw [← Expr.measurable_iff] at ha hb
    obtain ⟨c, hand⟩ := Expr.and_succeeds ha hb
    obtain ⟨d, hor⟩ := Expr.or_succeeds ha hb
    obtain ⟨n, hnegate⟩ := Expr.negate_succeeds ha
    exact ⟨⟨c, hand, Expr.holds_and I ρ hand⟩, ⟨d, hor, Expr.holds_or I ρ hor⟩, n, hnegate,
      Expr.holds_negate I ρ hnegate⟩
  · have ha := Cond.measurable_of_not_overflows ha
    have hb := Cond.measurable_of_not_overflows hb
    obtain ⟨c, hand⟩ := (ha.and hb).succeeds trivial
    obtain ⟨d, hor⟩ := (ha.or hb).succeeds trivial
    exact ⟨⟨c, hand, Cond.holds_and I ρ hand⟩, d, hor, Cond.holds_or I ρ hor⟩
  · obtain ⟨c, hall⟩ := Cond.all_succeeds fun c hc => Cond.measurable_of_not_overflows (hcs c hc)
    exact ⟨c, hall, Cond.holds_all I ρ hall⟩
  · obtain ⟨e, hany⟩ := Expr.any_succeeds fun e he => Expr.measurable_iff.2 (hes e he)
    exact ⟨e, hany, Expr.holds_any I ρ hany⟩

/-- Comparisons and flags, a literal that is no truth value since its width is left open, and a truth value. -/
def mixedTerms : List Expr :=
  [.bin .lt (.flag "x") (.flag "y"), .un .not (.flag "z"), .literal 2 ⟨.uint, [.param "W"]⟩, .bool true]

theorem mixedTerms_fold : (∀ e ∈ mixedTerms, ¬ e.Overflows) ∧
    (∃ c, Cond.all (none :: mixedTerms.map some) = .ok c ∧ c.holds .integers (.allBut ["x"]) = false) ∧
    (∃ e, Expr.any mixedTerms = .ok e ∧ e.holds .integers (.allBut ["x"]) = true) ∧
    (∃ c, (Expr.bin .lt (.flag "x") (.flag "y")).negate = .ok c ∧ c.holds .integers (.allBut ["x"]) = false) ∧
    ∃ c, Cond.or none (some (.un .not (.flag "z"))) = .ok c ∧ c.holds .integers (.allBut ["x"]) = true := by
  have hnone : ∀ e ∈ mixedTerms, ¬ e.Overflows := by
    simp only [mixedTerms, List.forall_mem_cons, List.not_mem_nil, false_imp_iff, implies_true, and_true,
      ← Expr.measurable_iff]
    exact ⟨⟨_, rfl⟩, ⟨_, rfl⟩, ⟨_, rfl⟩, ⟨_, rfl⟩⟩
  have hconds : ∀ c ∈ none :: mixedTerms.map some, ∀ e ∈ c, ¬ e.Overflows := by
    rintro c hc e rfl
    exact hnone e (by simpa using hc)
  obtain ⟨hexpr, hcond, hall, hany⟩ := folding_computes_truth .integers (.allBut ["x"])
  obtain ⟨c, hc, hctruth⟩ := hall _ hconds
  obtain ⟨e, he, hetruth⟩ := hany _ hnone
  obtain ⟨-, -, n, hn, hntruth⟩ := hexpr (.bin .lt (.flag "x") (.flag "y")) (.bool true) (hnone _ (by simp [mixedTerms]))
    (hnone _ (by simp [mixedTerms]))
  obtain ⟨-, d, hd, hdtruth⟩ := hcond none (some (.un .not (.flag "z"))) (hconds _ (by simp))
    (hconds _ (by simp [mixedTerms]))
  exact ⟨hnone, ⟨c, hc, hctruth.trans (by decide)⟩, ⟨e, he, hetruth.trans (by decide)⟩,
    ⟨n, hn, hntruth.trans (by decide)⟩, d, hd, hdtruth.trans (by decide)⟩

end Sequencer
