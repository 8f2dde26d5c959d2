import Standoff.Text.Printable

/-! # Quoted text: a string on one line, with its marks visible

The text stands between double quotes.  The double quote and the backslash take a backslash;
tab, line feed, carriage return and the null character have a letter each; every other
character that does not show by itself is written as its code point, `\u{...}` in lower-case
hexadecimal digits.  Single quotes need no escape.

* `escapeChar`: what stands for one character.
* `quote`: the whole text between its quotes. -/

namespace Standoff.Text

/-- What stands for `c` between the quotes. -/
def escapeChar (c : Char) : List Char :=
  match c with
  | '\x00' => ['\\', '0']
  | '\t' => ['\\', 't']
  | '\n' => ['\\', 'n']
  | '\r' => ['\\', 'r']
  | '"' => ['\\', '"']
  | '\\' => ['\\', '\\']
  | c =>
    if isPrintable c then [c]
    else ['\\', 'u', '\x7b'] ++ Nat.toDigits 16 c.toNat ++ ['\x7d']

def quote (s : String) : String :=
  String.ofList (['"'] ++ s.toList.flatMap escapeChar ++ ['"'])

end Standoff.Text
