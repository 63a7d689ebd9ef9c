set_option autoImplicit false

/-!
# Ranges of characters

A class of characters is a list of closed ranges of code points, ascending and apart.
-/

namespace Sequencer.Character

abbrev Ranges := List (Nat × Nat)

namespace Ranges

/-- Whether a code point is in one of the ranges. The search ends at the first range above it. -/
def holds (n : Nat) : Ranges → Bool
  | [] => false
  | (low, high) :: rest => Nat.ble low n && (Nat.ble n high || holds n rest)

/-- Whether every range is nonempty and ends before the next one starts. -/
def ascending : Ranges → Bool
  | [] => true
  | [(low, high)] => Nat.ble low high
  | (low, high) :: (low', high') :: rest => Nat.ble low high && Nat.blt high low' && ascending ((low', high') :: rest)

/-- On ascending ranges the search misses nothing. -/
theorem holds_iff (rs : Ranges) (h : rs.ascending = true) (n : Nat) :
    rs.holds n = true ↔ ∃ r ∈ rs, r.1 ≤ n ∧ n ≤ r.2 := by
  induction rs with
  | nil => simp [holds]
  | cons r rest ih =>
    have tail : holds n rest = true ↔ ∃ r ∈ rest, r.1 ≤ n ∧ n ≤ r.2 := by
      apply ih
      cases rest with
      | nil => rfl
      | cons _ _ =>
        simp only [ascending, Bool.and_eq_true] at h
        exact h.2
    have low : holds n rest = true → r.1 ≤ n := by
      intro hn
      cases rest with
      | nil => simp [holds] at hn
      | cons s _ =>
        simp only [ascending, Bool.and_eq_true, Nat.ble_eq, Nat.blt_eq] at h
        simp only [holds, Bool.and_eq_true, Nat.ble_eq] at hn
        omega
    simp only [holds, Bool.and_eq_true, Bool.or_eq_true, Nat.ble_eq, List.mem_cons, exists_eq_or_imp, ← tail]
    constructor
    · rintro ⟨hl, hh | hn⟩
      · exact .inl ⟨hl, hh⟩
      · exact .inr hn
    · rintro (⟨hl, hh⟩ | hn)
      · exact ⟨hl, .inl hh⟩
      · exact ⟨low hn, .inr hn⟩

end Ranges

end Sequencer.Character
