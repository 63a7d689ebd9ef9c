set_option autoImplicit false

/-!
# JSON text

Values and their text on several lines, with two columns of indentation a level.
-/

namespace Sequencer

inductive Json where
  | null
  | num (n : Int)
  | str (s : String)
  | arr (items : List Json)
  | obj (fields : List (String × Json))

namespace Json

/-- A character inside a string. Quotes, backslashes and control characters are escaped. -/
def escape (c : Char) : List Char :=
  if c = '"' then ['\\', '"']
  else if c = '\\' then ['\\', '\\']
  else if c = '\n' then ['\\', 'n']
  else if c = '\r' then ['\\', 'r']
  else if c = '\t' then ['\\', 't']
  else if c.toNat = 8 then ['\\', 'b']
  else if c.toNat = 12 then ['\\', 'f']
  else if c.toNat < 16 then ['\\', 'u', '0', '0', '0'] ++ Nat.toDigits 16 c.toNat
  else if c.toNat < 32 then ['\\', 'u', '0', '0'] ++ Nat.toDigits 16 c.toNat
  else [c]

def quote (s : String) : String := String.ofList ('"' :: s.toList.flatMap escape ++ ['"'])

def indent (level : Nat) : String := String.ofList (List.replicate (2 * level) ' ')

/-- Items in brackets, one a line. Nothing stands between the brackets if there are none. -/
def bracketed (opening closing : String) (level : Nat) (items : List String) : String :=
  if items.isEmpty then opening ++ closing
  else
    opening ++ "\n" ++ ",\n".intercalate (items.map (indent (level + 1) ++ ·)) ++ "\n" ++ indent level ++ closing

mutual
def text (level : Nat) : Json → String
  | null => "null"
  | num n => toString n
  | str s => quote s
  | arr items => bracketed "[" "]" level (texts (level + 1) items)
  | obj fields => bracketed "\x7b" "\x7d" level (fieldTexts (level + 1) fields)
def texts (level : Nat) : List Json → List String
  | [] => []
  | j :: js => j.text level :: texts level js
def fieldTexts (level : Nat) : List (String × Json) → List String
  | [] => []
  | (k, j) :: rest => (quote k ++ ": " ++ j.text level) :: fieldTexts level rest
end

def pretty (j : Json) : String := j.text 0

/-- A value under the name of its case. -/
def tagged (tag : String) (j : Json) : Json := obj [(tag, j)]

end Json

end Sequencer
