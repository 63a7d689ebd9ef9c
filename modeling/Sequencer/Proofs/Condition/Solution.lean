import Mathlib.Data.Finset.Card
import Mathlib.Logic.Relation
import Sequencer.Condition.Network
import Sequencer.Proofs.Expr.Leaves

set_option autoImplicit false

/-!
# Solutions of condition networks

A network of conditions is a system of boolean equations, one a condition. A condition without a value is a free
input. If no condition refers back to itself, the system has one solution.
-/

namespace Sequencer

open Comb

namespace Network

def names (conds : List Assign) : List String := conds.map Assign.target

theorem target_mem_names {conds : List Assign} {c : Assign} (hc : c ∈ conds) : c.target ∈ names conds :=
  List.mem_map_of_mem hc

/-- The condition `a` uses the condition `b` in its value. -/
def Refers (conds : List Assign) (a b : String) : Prop :=
  ∃ c ∈ conds, ∃ v, c.target = a ∧ c.val = some v ∧ b ∈ names conds ∧ ∃ w ∈ v.wires, w.name = b

def Acyclic (conds : List Assign) : Prop := ∀ a, ¬ Relation.TransGen (Refers conds) a a

theorem acyclic_of_rank {conds : List Assign} (rank : String → Nat)
    (h : ∀ a b, Refers conds a b → rank b < rank a) : Acyclic conds := by
  intro a ha
  have hlt : ∀ b, Relation.TransGen (Refers conds) a b → rank b < rank a := by
    intro b hab
    induction hab with
    | single hab => exact h _ _ hab
    | tail _ hbc ih => exact (h _ _ hbc).trans ih
  exact Nat.lt_irrefl _ (hlt a ha)

theorem Acyclic.of_refers {conds conds' : List Assign} (hc : Acyclic conds)
    (h : ∀ a b, Refers conds' a b → Relation.TransGen (Refers conds) a b) : Acyclic conds' := by
  intro a ha
  have hle : ∀ b, Relation.TransGen (Refers conds') a b → Relation.TransGen (Refers conds) a b := by
    intro b hab
    induction hab with
    | single hab => exact h _ _ hab
    | tail _ hbc ih => exact ih.trans (h _ _ hbc)
  exact hc a (hle a ha)

section Rank

open Classical in
/-- The conditions that the condition `a` depends on. -/
noncomputable def dependencies (conds : List Assign) (a : String) : Finset String :=
  (names conds).toFinset.filter fun b => Relation.TransGen (Refers conds) a b

noncomputable def rank (conds : List Assign) (a : String) : Nat := (dependencies conds a).card

theorem mem_dependencies {conds : List Assign} {a b : String} :
    b ∈ dependencies conds a ↔ Relation.TransGen (Refers conds) a b := by
  simp only [dependencies, Finset.mem_filter, List.mem_toFinset, and_iff_right_iff_imp]
  intro hab
  obtain ⟨c, _, _, _, _, _, _, hb, _⟩ := Relation.TransGen.tail'_iff.1 hab
  exact hb

theorem Acyclic.rank_lt {conds : List Assign} (hc : Acyclic conds) {a b : String} (hab : Refers conds a b) :
    rank conds b < rank conds a := by
  refine Finset.card_lt_card (Finset.ssubset_iff_of_subset ?_ |>.2 ⟨b, ?_, ?_⟩)
  · intro x hx
    exact mem_dependencies.2 (.head hab (mem_dependencies.1 hx))
  · exact mem_dependencies.2 (.single hab)
  · intro hb
    exact hc b (mem_dependencies.1 hb)

/-- With distinct names the dependencies of a condition are those of its value. -/
theorem rank_eq_of_val_eq {conds : List Assign} (hn : (names conds).Nodup) {c d : Assign} (hc : c ∈ conds)
    (hd : d ∈ conds) (hcd : c.val = d.val) : rank conds c.target = rank conds d.target := by
  have hrefers : ∀ {c d : Assign}, c ∈ conds → d ∈ conds → c.val = d.val → ∀ b, Refers conds c.target b →
      Refers conds d.target b := by
    rintro c d hc hd hcd b ⟨c', hc', v, htarget, hv, hb⟩
    have hcc : c' = c := List.inj_on_of_nodup_map hn hc' hc htarget
    exact ⟨d, hd, v, rfl, by rw [← hcd, ← hcc, hv], hb⟩
  have hsub : ∀ {c d : Assign}, c ∈ conds → d ∈ conds → c.val = d.val →
      dependencies conds c.target ⊆ dependencies conds d.target := by
    intro c d hc hd hcd b hb
    rw [mem_dependencies] at hb ⊢
    rw [Relation.TransGen.head'_iff] at hb ⊢
    obtain ⟨x, hx, hxb⟩ := hb
    exact ⟨x, hrefers hc hd hcd x hx, hxb⟩
  exact congrArg Finset.card (Finset.Subset.antisymm (hsub hc hd hcd) (hsub hd hc hcd.symm))

end Rank

section Solution

variable {V : Type} (I : Interpretation V) (ρ : Valuation V)

/-- Reads the names of conditions as truth bits and leaves all else. -/
def reading (ns : List String) (β : String → Bool) : Valuation V where
  operand := ρ.operand
  wire := fun w => if w.name ∈ ns then I.bit (β w.name) else ρ.wire w

/-- The truth value that the definition of a condition demands if the conditions have the truth values `β`. -/
def demand (free : String → Bool) (ns : List String) (β : String → Bool) (c : Assign) : Bool :=
  match c.val with
  | some v => v.holds I (reading I ρ ns β)
  | none => free c.target

def Solves (free : String → Bool) (conds : List Assign) (β : String → Bool) : Prop :=
  ∀ c ∈ conds, β c.target = demand I ρ free (names conds) β c

instance (free β : String → Bool) (conds : List Assign) : Decidable (Solves I ρ free conds β) :=
  inferInstanceAs (Decidable (∀ c ∈ conds, β c.target = demand I ρ free (names conds) β c))

end Solution

end Network

end Sequencer
