import ShaderPass.Text.Blank
import ShaderPass.Text.Quoted
import ShaderPass.Text.Word

/-!
Lexemes of constant integer expressions, and what can be wrong with an expression.
-/
namespace ShaderPass.ConstExpr

inductive Op where
  | and | or | eq | ne | le | ge | lt | gt | add | sub | mul | div | rem | not | opening | closing
  deriving Repr, DecidableEq

namespace Op

def symbol : Op → String
  | and => "&&" | or => "||" | eq => "==" | ne => "!=" | le => "<=" | ge => ">=" | lt => "<"
  | gt => ">" | add => "+" | sub => "-" | mul => "*" | div => "/" | rem => "%" | not => "!"
  | opening => "(" | closing => ")"

/-- All operators; one that starts with another comes first. -/
def all : List Op :=
  [and, or, eq, ne, le, ge, lt, gt, add, sub, mul, div, rem, not, opening, closing]

def atStart? (t : Text) : Option Op :=
  all.find? fun op => op.symbol.toList.isPrefixOf t

end Op

inductive Lexeme where
  | int (value : Nat)
  | ident (name : String)
  | op (op : Op)
  deriving Repr, DecidableEq

def Lexeme.display : Lexeme → String
  | int n => s!"Int({n})"
  | ident name => "Ident(" ++ Quoted.string name ++ ")"
  | op o => "Op(" ++ Quoted.string o.symbol ++ ")"

inductive Fault where
  | unexpectedChar (c : Char)
  | unexpectedEnd
  | unexpectedToken (shown : String)
  | unknownIdentifier (name : String)
  | divisionByZero
  | overflow
  deriving Repr, DecidableEq

def Fault.message : Fault → String
  | unexpectedChar c => "unexpected character " ++ Quoted.char c
  | unexpectedEnd => "unexpected end of expression"
  | unexpectedToken shown => "unexpected token " ++ Quoted.string shown
  | unknownIdentifier name => "identifier " ++ Quoted.string name ++ " is not a constant"
  | divisionByZero => "division by zero"
  | overflow => "integer overflow"

/-- The value of a literal: decimal or hexadecimal digits, an unsigned mark aside, within the signed
64-bit range. -/
def literal? (run : Text) : Option Nat :=
  let digits := Text.trimEndWhile (fun c => c = 'u' || c = 'U') run
  let value := match digits with
    | '0' :: 'x' :: hex => natOfDigits? 16 hex
    | '0' :: 'X' :: hex => natOfDigits? 16 hex
    | _ => natOfDigits? 10 digits
  value.filter fun n => fitsSigned n

/-- The first lexeme of a text, if the text starts with `c`, and how many characters after `c` belong
to it. -/
def lexeme (c : Char) (rest : Text) : Except Fault (Lexeme × Nat) :=
  let word := c :: rest.takeWhile isIdentChar
  if c.isDigit then
    match literal? word with
    | some n => .ok (.int n, word.length - 1)
    | none => .error (.unexpectedToken (String.ofList word))
  else if isIdentStart c then .ok (.ident (String.ofList word), word.length - 1)
  else match Op.atStart? (c :: rest) with
    | some op => .ok (.op op, op.symbol.length - 1)
    | none => .error (.unexpectedChar c)

def lex : Text → Except Fault (List Lexeme)
  | [] => .ok []
  | c :: t =>
    if isBlank c then lex t
    else do
      let (first, more) ← lexeme c t
      let later ← lex (t.drop more)
      return first :: later
termination_by t => t.length
decreasing_by all_goals simp only [List.length_cons, List.length_drop]; omega

end ShaderPass.ConstExpr
