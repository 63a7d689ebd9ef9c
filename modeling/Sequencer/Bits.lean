set_option autoImplicit false

/-!
# Bit counts
-/

namespace Sequencer

/-- Number of binary digits of `n`, none for zero. -/
def bitLength (n : Nat) : Nat := if n = 0 then 0 else n.log2 + 1

/-- Bits needed to tell `n` values apart, at least one. -/
def bitsFor (n : Nat) : Nat := max (bitLength (n - 1)) 1

end Sequencer
