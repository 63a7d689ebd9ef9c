set_option autoImplicit false

/-!
# Names

Names are strings, ordered by code point. The ending of a signal name tells its role.
-/

namespace Sequencer

namespace Name

def endsIn (name ending : String) : Bool := ending.toList.isSuffixOf name.toList

/-- Enables and handshakes are control signals: a default of theirs stays under its guard. -/
def isControl (name : String) : Bool :=
  endsIn name "_en" || endsIn name ".valid" || endsIn name ".ready"

/-- Lexicographic order by code point, which is also the order of the UTF-8 bytes. -/
def leChars : List Char → List Char → Bool
  | [], _ => true
  | _ :: _, [] => false
  | c :: cs, d :: ds => if c = d then leChars cs ds else Nat.blt c.toNat d.toNat

def le (a b : String) : Bool := leChars a.toList b.toList

def sort (names : List String) : List String := names.mergeSort le

def enable (name : String) : String := name ++ "_en"

def nextValue (name : String) : String := name ++ "_next"

def held (name : String) : String := name ++ "_reg"

def latched (name : String) : String := name ++ "_v"

def data (name : String) : String := name ++ "_s"

def valid (name : String) : String := name ++ ".valid"

def ready (name : String) : String := name ++ ".ready"

/-- End of transaction of an interface. -/
def last (name : String) : String := name ++ ".eot"

def cycleCond (block : Nat) : String := "cycle_cond_block_" ++ toString block

def exitCond (block : Nat) : String := "exit_cond_block_" ++ toString block

def resetCond : String := "rst_cond"

/-- The register that holds the state. -/
def state : String := "state"

end Name

end Sequencer
