import Retrace.Text.Blank

/-!
The words of an argument line. Blanks separate words; quotes and backslashes take characters as they are. This
too is left to a general library, for the word splitting of a shell, and `words` stands for what it does.
-/

set_option autoImplicit false

namespace Retrace.Command

inductive Mode where
  | between
  | word
  | single
  | double
deriving DecidableEq, Repr

def escapedInQuotes (c : Char) : List Char :=
  match c.toNat with
  | 0x22 | 0x24 | 0x5c | 0x60 => [c]
  | _ => ['\\', c]

/-- Reads on from a word of which `w` has been read; none if a quote stays open. A line break cannot be
escaped: outside quotes the backslash before it stands for itself, as at the very end, and inside double
quotes nothing closes them. -/
def wordsFrom (mode : Mode) (w : List Char) : List Char → Option (List String)
  | [] =>
    match mode with
    | .between => some []
    | .word => some [String.ofList w]
    | .single | .double => none
  | c :: cs =>
    match mode with
    | .single => if c = '\'' then wordsFrom .word w cs else wordsFrom .single (w ++ [c]) cs
    | .double =>
      if c = '"' then wordsFrom .word w cs
      else if c = '\\' then
        match cs with
        | [] => none
        | '\n' :: _ => none
        | d :: ds => wordsFrom .double (w ++ escapedInQuotes d) ds
      else wordsFrom .double (w ++ [c]) cs
    | .between | .word =>
      if Text.isBlank c then
        match mode with
        | .word => (wordsFrom .between [] cs).map (String.ofList w :: ·)
        | _ => wordsFrom .between [] cs
      else if c = '\'' then wordsFrom .single w cs
      else if c = '"' then wordsFrom .double w cs
      else if c = '\\' then
        match cs with
        | [] => wordsFrom .word (w ++ ['\\']) []
        | '\n' :: ds => wordsFrom .word (w ++ ['\\']) ('\n' :: ds)
        | d :: ds => wordsFrom .word (w ++ [d]) ds
      else wordsFrom .word (w ++ [c]) cs

/-- The words of a line; none if a quote stays open. -/
def words (line : String) : Option (List String) := wordsFrom .between [] line.toList

end Retrace.Command
