import ShaderPass.Token.Basic

/-!
Brackets: matching closes in token lists, and lists separated by commas outside brackets.
-/
namespace ShaderPass

structure Bracket where
  opening : Char
  closing : Char
  deriving Repr, DecidableEq

namespace Bracket

def paren : Bracket := ⟨'(', ')'⟩

def square : Bracket := ⟨'[', ']'⟩

def brace : Bracket := ⟨'\x7b', '\x7d'⟩

def ofOpening? (lexeme : Text) : Option Bracket :=
  [paren, square, brace].find? fun b => lexeme = [b.opening]

/-- How many tokens precede the one that brings the depth back to zero. Only brackets of the one
pair count. -/
def closeAfter (b : Bracket) (depth : Nat) : List Token → Option Nat
  | [] => none
  | t :: ts =>
    if t.isPunct b.opening then (closeAfter b (depth + 1) ts).map (· + 1)
    else if t.isPunct b.closing then
      if depth = 1 then some 0 else (closeAfter b (depth - 1) ts).map (· + 1)
    else (closeAfter b depth ts).map (· + 1)

def closeOffset? : List Token → Option Nat
  | [] => none
  | t :: ts => do
    let b ← ofOpening? t.lexeme
    closeAfter b 0 (t :: ts)

def matchingClose? (ts : List Token) (i : Nat) : Option Nat :=
  (closeOffset? (ts.drop i)).map (· + i)

end Bracket

namespace Text

/-- The change of depth at a character, for the three pairs together. -/
def depthStep (c : Char) : Int :=
  if c = '(' || c = '[' || c = '\x7b' then 1
  else if c = ')' || c = ']' || c = '\x7d' then -1
  else 0

def topPieces (depth : Int) : Text → List Text
  | [] => [[]]
  | c :: t =>
    if c = ',' && depth = 0 then [] :: topPieces 0 t
    else match topPieces (depth + depthStep c) t with
      | [] => [[c]]
      | piece :: rest => (c :: piece) :: rest

def splitArgs (t : Text) : List Text :=
  match (topPieces 0 t).map trim with
  | [[]] => []
  | pieces => pieces

end Text
end ShaderPass
