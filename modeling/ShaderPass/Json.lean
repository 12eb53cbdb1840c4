import ShaderPass.Text.Numeral

/-!
Reflection data as JSON: a value type, a compact form on one line, and an indented form for files.
-/
namespace ShaderPass

inductive Json where
  | null
  | bool (value : Bool)
  | num (value : Int)
  | str (value : String)
  | arr (items : List Json)
  | obj (members : List (String × Json))

namespace Json

def escape (c : Char) : String :=
  match c with
  | '"' => "\\\""
  | '\\' => "\\\\"
  | '\n' => "\\n"
  | '\r' => "\\r"
  | '\t' => "\\t"
  | '\x08' => "\\b"
  | '\x0c' => "\\f"
  | _ =>
    if c.toNat < 0x20 then
      let digits := hexDigits c.toNat
      "\\u".pushn '0' (4 - digits.length) ++ digits
    else c.toString

def quote (s : String) : String :=
  "\"" ++ String.join (s.toList.map escape) ++ "\""

def newline (depth : Nat) : String :=
  "\n".pushn ' ' (2 * depth)

mutual

def write (out : String) : Json → String
  | null => out ++ "null"
  | bool b => out ++ (if b then "true" else "false")
  | num n => out ++ toString n
  | str s => out ++ quote s
  | arr items => writeItems (out ++ "[") items ++ "]"
  | obj members => writeMembers (out ++ "\x7b") members ++ "\x7d"

def writeItems (out : String) : List Json → String
  | [] => out
  | [item] => write out item
  | item :: items => writeItems (write out item ++ ",") items

def writeMembers (out : String) : List (String × Json) → String
  | [] => out
  | [(key, value)] => write (out ++ quote key ++ ":") value
  | (key, value) :: members => writeMembers (write (out ++ quote key ++ ":") value ++ ",") members

end

def compact (value : Json) : String :=
  write "" value

mutual

/-- Appends the value with every item and member on a line of its own. Empty collections stay on one
line. -/
def writeIndented (depth : Nat) (out : String) : Json → String
  | arr [] => out ++ "[]"
  | arr items => writeIndentedItems (depth + 1) (out ++ "[") items ++ newline depth ++ "]"
  | obj [] => out ++ "\x7b\x7d"
  | obj members =>
    writeIndentedMembers (depth + 1) (out ++ "\x7b") members ++ newline depth ++ "\x7d"
  | value => write out value

def writeIndentedItems (depth : Nat) (out : String) : List Json → String
  | [] => out
  | [item] => writeIndented depth (out ++ newline depth) item
  | item :: items =>
    writeIndentedItems depth (writeIndented depth (out ++ newline depth) item ++ ",") items

def writeIndentedMembers (depth : Nat) (out : String) : List (String × Json) → String
  | [] => out
  | [(key, value)] => writeIndented depth (out ++ newline depth ++ quote key ++ ": ") value
  | (key, value) :: members =>
    writeIndentedMembers depth
      (writeIndented depth (out ++ newline depth ++ quote key ++ ": ") value ++ ",") members

end

def pretty (value : Json) : String :=
  writeIndented 0 "" value

def text (t : Text) : Json :=
  str (String.ofList t)

def list (f : α → Json) (items : List α) : Json :=
  arr (items.map f)

def option (f : α → Json) : Option α → Json
  | none => null
  | some a => f a

def optional (key : String) (f : α → Json) : Option α → List (String × Json)
  | none => []
  | some a => [(key, f a)]

def nonempty (key : String) (f : α → Json) : List α → List (String × Json)
  | [] => []
  | items => [(key, list f items)]

def nat (n : Nat) : Json :=
  num (Int.ofNat n)

end Json
end ShaderPass
