import Mathlib.Order.Bounds.Defs
import Sequencer.Proofs.Expr.Word
import Sequencer.Proofs.Lowering.Machine

set_option autoImplicit false

/-!
# The state register

The register has as few bits as its states allow, and every state fits in them. So the register tells the states apart,
and each test of the state is exact, also where it is left out.
-/

namespace Sequencer

theorem bitLength_le_iff {n w : Nat} : bitLength n ≤ w ↔ n < 2 ^ w := by
  rw [bitLength]
  split
  · rename_i hzero
    rw [hzero]
    exact iff_of_true (Nat.zero_le w) (Nat.two_pow_pos w)
  · rename_i hne
    rw [Nat.succ_le_iff, Nat.log2_lt hne]

/-- A width is enough for `n` values if and only if it is not zero and there are at least `n` words of this width. -/
theorem bitsFor_le_iff {n w : Nat} : bitsFor n ≤ w ↔ 1 ≤ w ∧ n ≤ 2 ^ w := by
  have hpos : 0 < 2 ^ w := Nat.two_pow_pos w
  have hpred : n - 1 < 2 ^ w ↔ n ≤ 2 ^ w := by omega
  rw [bitsFor, max_le_iff, bitLength_le_iff, hpred, and_comm]

theorem isLeast_bitsFor (n : Nat) : IsLeast {w | 1 ≤ w ∧ n ≤ 2 ^ w} (bitsFor n) :=
  ⟨bitsFor_le_iff.1 le_rfl, fun _ hw => bitsFor_le_iff.2 hw⟩

namespace StateSpace

variable {sp : StateSpace}

theorem lt_two_pow_width {s : Nat} (hs : s ≤ sp.maxState) : s < 2 ^ sp.width :=
  Nat.lt_of_succ_le ((Nat.succ_le_succ hs).trans (isLeast_bitsFor (sp.maxState + 1)).1.2)

theorem width_le (hmax : sp.maxState < 2 ^ 32) : sp.width ≤ 32 := bitsFor_le_iff.2 ⟨by decide, hmax⟩

theorem toNat_width (hmax : sp.maxState < 2 ^ 32) : (UInt64.ofNat sp.width).toNat = sp.width := by
  have hle := width_le hmax
  exact UInt64.toNat_ofNat_of_lt (by simp only [UInt64.size]; omega)

theorem width_type (hmax : sp.maxState < 2 ^ 32) : sp.type.width = .ok sp.width :=
  congrArg Except.ok (toNat_width hmax)

variable {V : Type} {I : Interpretation V}

theorem distinguished_of_comparesNumbers (hI : I.ComparesNumbers) (hmax : sp.maxState < 2 ^ 32) : sp.Distinguished I := by
  have hfits : ∀ x ≤ sp.maxState, x < 2 ^ (UInt64.ofNat sp.width).toNat := by
    intro x hx
    rw [toNat_width hmax]
    exact lt_two_pow_width hx
  intro k s hk hs
  exact (hI (UInt64.ofNat sp.width) k s (hfits k hk) (hfits s hs)).trans (decide_eq_decide.2 eq_comm)

/-- The width is the least one, every state fits, and a test of the state gives a condition that holds in the listed states
and in no other. States are counted in 32 bits. -/
theorem state_tests_exact (hI : I.ComparesNumbers) :
    (∀ n, IsLeast {w | 1 ≤ w ∧ n ≤ 2 ^ w} (bitsFor n)) ∧
    ∀ sp : StateSpace, sp.maxState < 2 ^ 32 →
      (sp.type.width = .ok sp.width ∧ ∀ s ≤ sp.maxState, s < 2 ^ sp.width) ∧
      (∀ ids : List Nat, ids ≠ [] → (∀ x ∈ ids, x ≤ sp.maxState) → ∃ c, sp.isIn ids = .ok c ∧
        ∀ s ≤ sp.maxState, ∀ ρ, c.holds I (sp.load ρ (sp.value I s)) = decide (s ∈ ids)) ∧
      ∀ ids parent : List Nat, ids ≠ [] → ids.Nodup → (∀ x ∈ ids, x ≤ sp.maxState) → ∃ c, sp.narrow ids parent = .ok c ∧
        ∀ s ∈ parent, s ≤ sp.maxState → ∀ ρ, c.holds I (sp.load ρ (sp.value I s)) = decide (s ∈ ids) := by
  refine ⟨isLeast_bitsFor, fun sp hmax => ?_⟩
  -- Both tests go by those of single states, which are decided once the register holds a state.
  have hloaded : ∀ s ≤ sp.maxState, ∀ ρ, sp.Holds I (sp.load ρ (sp.value I s)) s :=
    fun s hs ρ => (distinguished_of_comparesNumbers hI hmax).holds hs (if_pos rfl)
  refine ⟨⟨width_type hmax, fun s => lt_two_pow_width⟩, fun ids hne hle => ?_, fun ids parent hne hnodup hle => ?_⟩
  · obtain ⟨c, hc, _⟩ := exists_isIn sp ids
    exact ⟨c, hc, fun s hs ρ => (hloaded s hs ρ).isIn hne hle hc⟩
  · obtain ⟨c, hc, _⟩ := exists_narrow sp ids parent
    exact ⟨c, hc, fun s hparent hs ρ => (hloaded s hs ρ).narrow hne hnodup hle hparent hc⟩

/-- Five states need three bits. -/
theorem fiveStates_tested : Interpretation.words.ComparesNumbers ∧
    IsLeast {w | 1 ≤ w ∧ 5 ≤ 2 ^ w} 3 ∧ (⟨4⟩ : StateSpace).type.width = .ok 3 ∧
    (∃ c, isIn ⟨4⟩ [4, 1, 4] = .ok c ∧ ∀ ρ, c.holds .words (load ⟨4⟩ ρ (value .words ⟨4⟩ 4)) = true ∧
      c.holds .words (load ⟨4⟩ ρ (value .words ⟨4⟩ 0)) = false) ∧
    ∃ c, narrow ⟨4⟩ [1, 4] [4, 0, 1] = .ok c ∧ ∀ ρ, c.holds .words (load ⟨4⟩ ρ (value .words ⟨4⟩ 1)) = true ∧
      c.holds .words (load ⟨4⟩ ρ (value .words ⟨4⟩ 0)) = false := by
  have hI := Interpretation.words_comparesNumbers
  obtain ⟨hleast, hspace⟩ := state_tests_exact hI
  obtain ⟨⟨hwidth, _⟩, hisIn, hnarrow⟩ := hspace ⟨4⟩ (by decide)
  obtain ⟨c, hc, htest⟩ := hisIn [4, 1, 4] (by decide) (by decide)
  obtain ⟨d, hd, hguard⟩ := hnarrow [1, 4] [4, 0, 1] (by decide) (by decide) (by decide)
  refine ⟨hI, hleast 5, hwidth, ⟨c, hc, fun ρ => ?_⟩, d, hd, fun ρ => ?_⟩
  · exact ⟨htest 4 (by decide) ρ, htest 0 (by decide) ρ⟩
  · exact ⟨hguard 1 (by decide) (by decide) ρ, hguard 0 (by decide) (by decide) ρ⟩

end StateSpace

end Sequencer
