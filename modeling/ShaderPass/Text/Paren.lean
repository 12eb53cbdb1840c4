import ShaderPass.Text.Basic

/-!
Parentheses in plain text.
-/
namespace ShaderPass.Text

/-- How many characters precede the closing parenthesis that brings the depth to zero. -/
def closeParen? (depth : Int) : Text → Option Nat
  | [] => none
  | c :: t =>
    if c = '(' then (closeParen? (depth + 1) t).map (· + 1)
    else if c = ')' then
      if depth = 1 then some 0 else (closeParen? (depth - 1) t).map (· + 1)
    else (closeParen? depth t).map (· + 1)

end ShaderPass.Text
