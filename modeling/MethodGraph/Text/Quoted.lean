import MethodGraph.Text.ExtendingMark
import MethodGraph.Text.Ignorable
import MethodGraph.Text.Unprintable
/-!
  Text in quotes.

  A quote and a backslash stand behind a backslash, four controls have a letter of their own, and
  any other character that could not be seen where it stands is shown by its number.
-/

namespace MethodGraph

/-- Whether quoted text shows a character by its number: a mark that extends the character before
    it, a character that is ignored by default, or one that leaves no mark and is not a blank. -/
def isShownByNumber (c : Char) : Bool :=
  isExtendingMark c || isIgnorable c || (isUnprintable c && c != ' ')

/-- A character inside quotes. -/
def quotedChar (c : Char) : String :=
  match c with
  | '"' => "\\\""
  | '\\' => "\\\\"
  | '\x00' => "\\0"
  | '\t' => "\\t"
  | '\r' => "\\r"
  | '\n' => "\\n"
  | c =>
    if isShownByNumber c then "\\u\x7b" ++ String.ofList (Nat.toDigits 16 c.toNat) ++ "\x7d"
    else String.singleton c

/-- A text in quotes. -/
def quoted (s : String) : String := "\"" ++ String.join (s.toList.map quotedChar) ++ "\""

end MethodGraph
