import Failures.Text.Hidden

/-!
Quoted text.

A quoted string stands between double quotes. Inside, the quote, the backslash
and the four blanks that have a letter are written with a backslash, every
other character that shows nothing by itself is written as its code point in
braces, and all else stands as it is.
-/

namespace Failures.Text

/-- The code point of `c` in braces, in lowercase hexadecimal without leading
zeros. -/
def codePoint (c : Char) : String :=
  "\\u\x7b" ++ String.ofList (Nat.toDigits 16 c.toNat) ++ "\x7d"

/-- How `c` is written between double quotes. -/
def escape (c : Char) : String :=
  match c with
  | '\x00' => "\\0"
  | '\t' => "\\t"
  | '\n' => "\\n"
  | '\r' => "\\r"
  | '"' => "\\\""
  | '\\' => "\\\\"
  | c => if isHidden c then codePoint c else c.toString

def quoted (text : String) : String :=
  "\"" ++ String.join (text.toList.map escape) ++ "\""

end Failures.Text
