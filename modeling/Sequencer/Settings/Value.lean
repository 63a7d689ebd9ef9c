import Sequencer.Fault

set_option autoImplicit false

/-!
# Values of options

An option takes a truth value or a number of 64 bits.
-/

namespace Sequencer

namespace Decimal

/-- Reads a nonempty list of decimal digits on top of `acc`. -/
def digits (acc : Nat) : List Char → Option Nat
  | [] => some acc
  | c :: cs => if c.isDigit then digits (10 * acc + (c.toNat - '0'.toNat)) cs else none

def natural : List Char → Option Nat
  | [] => none
  | cs => digits 0 cs

def int64 (n : Int) : Option Int := if -9223372036854775808 ≤ n ∧ n ≤ 9223372036854775807 then some n else none

/-- Reads a number of 64 bits: at most one sign, then one or more digits and nothing else. -/
def signed : List Char → Option Int
  | '+' :: cs => (natural cs).bind fun n => int64 n
  | '-' :: cs => (natural cs).bind fun n => int64 (-n)
  | cs => (natural cs).bind fun n => int64 n

end Decimal

inductive OptionValue where
  | flag (b : Bool)
  | number (n : Int)
deriving DecidableEq, Repr

namespace OptionValue

def text : OptionValue → String
  | flag b => if b then "true" else "false"
  | number n => toString n

def asFlag : OptionValue → Checked Bool
  | flag b => return b
  | v => .abort (.expectedBool v.text)

def asNumber : OptionValue → Checked Int
  | number n => return n
  | v => .abort (.expectedNumber v.text)

/-- A number that is not negative. -/
def asNatural (v : OptionValue) : Checked (Option Nat) := do
  let n ← v.asNumber
  return if n < 0 then none else some n.toNat

def readFlag (s : String) : Option OptionValue :=
  if s = "true" then some (flag true) else if s = "false" then some (flag false) else none

def readNumber (s : String) : Option OptionValue := (Decimal.signed s.toList).map number

/-- Reads a value of the same sort as `self`. -/
def readLike : OptionValue → String → Option OptionValue
  | flag _ => readFlag
  | number _ => readNumber

end OptionValue

end Sequencer
