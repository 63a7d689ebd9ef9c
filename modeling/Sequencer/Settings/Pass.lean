import Sequencer.Listing
import Sequencer.Settings.Value

set_option autoImplicit false

/-!
# Passes and their options

An option is given as `pass:option` or `pass:option=value`. What does not fit is ignored with a notice, and an option
that is not given has its default.
-/

namespace Sequencer

inductive Level where
  | warn
  | info
deriving DecidableEq, Repr

structure Notice where
  level : Level
  message : String
deriving DecidableEq, Repr

structure PassOption where
  name : String
  description : String
  default : OptionValue
deriving DecidableEq, Repr

structure Pass where
  name : String
  description : String
  options : List PassOption
deriving DecidableEq, Repr

/-- The pieces of a text between occurrences of a separator, empty ones included. -/
def splitAt (sep : Char) : List Char → List (List Char)
  | [] => [[]]
  | c :: cs =>
    if c = sep then [] :: splitAt sep cs
    else
      match splitAt sep cs with
      | p :: ps => (c :: p) :: ps
      | [] => [[c]]

/-- The same pieces of a string, as strings. -/
def pieces (sep : Char) (s : String) : List String := (splitAt sep s.toList).map String.ofList

namespace Pass

/-- What one argument says about the options of a pass. -/
inductive Reading where
  | silent
  | ignored (n : Notice)
  | given (option : String) (value : OptionValue)

/-- Reads `option` or `option=value`. An option alone has the value `true`. -/
def readOption (p : Pass) (s : String) : Reading :=
  let (name, value) := match pieces '=' s with
    | name :: value :: _ => (name, value)
    | [name] => (name, "true")
    | [] => ("", "true")
  match p.options.find? (·.name == name) with
  | none => .ignored ⟨.warn, "Ignoring unknown option for pass `" ++ p.name ++ "`: " ++ name⟩
  | some o =>
    match o.default.readLike value with
    | none => .ignored ⟨.warn, "Ignoring invalid value for option `" ++ p.name ++ ":" ++ o.name ++ "`: " ++ value⟩
    | some v => .given o.name v

def readArgument (p : Pass) (s : String) : Reading :=
  match pieces ':' s with
  | pass :: option :: _ => if pass = p.name then p.readOption option else .silent
  | _ => .silent

/-- Takes the arguments in order. An option given again counts as given last. -/
def readArguments (p : Pass) : List String → Listing OptionValue × List Notice → Listing OptionValue × List Notice
  | [], acc => acc
  | s :: ss, (values, log) =>
    match p.readArgument s with
    | .silent => p.readArguments ss (values, log)
    | .ignored n => p.readArguments ss (values, log ++ [n])
    | .given o v => p.readArguments ss (values.insert o v, log)

/-- The values of all options of a pass, those given first, and the notices. -/
def settings (p : Pass) (arguments : List String) : Listing OptionValue × List Notice :=
  let (given, log) := p.readArguments arguments (.empty, [])
  (p.options.foldl (fun vs o => if vs.contains o.name then vs else vs.insert o.name o.default) given, log)

def flag (values : Listing OptionValue) (name : String) : Bool :=
  match values.get? name with
  | some (.flag b) => b
  | _ => false

/-- The value of a number option, or `fallback` if it is negative. -/
def natural (values : Listing OptionValue) (name : String) (fallback : Nat) : Nat :=
  match values.get? name with
  | some (.number n) => if n < 0 then fallback else n.toNat
  | _ => fallback

end Pass

end Sequencer
