import ShaderPass.Text.Numeral
import ShaderPass.Text.Printable

/-!
Quoted text, as messages show names and characters: the quote, the backslash and the common controls
have short escapes, and other hidden characters are written by their code point.
-/
namespace ShaderPass.Quoted

def escape (quote c : Char) : String :=
  if c = quote then "\\" ++ c.toString
  else match c with
    | '\\' => "\\\\"
    | '\n' => "\\n"
    | '\r' => "\\r"
    | '\t' => "\\t"
    | '\x00' => "\\0"
    | _ => if isPrintable c then c.toString else "\\u\x7b" ++ hexDigits c.toNat ++ "\x7d"

def char (c : Char) : String :=
  "'" ++ escape '\'' c ++ "'"

def string (s : String) : String :=
  "\"" ++ String.join (s.toList.map (escape '"')) ++ "\""

end ShaderPass.Quoted
