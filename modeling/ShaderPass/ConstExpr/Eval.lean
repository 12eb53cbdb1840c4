import ShaderPass.ConstExpr.Lexeme

/-!
Values of constant integer expressions, as `#if` conditions and array lengths use them.

Binary operators associate to the left on six levels. Comparison and logic give zero or one, both
operands of a logical operator are evaluated, and every intermediate value stays within the signed
64-bit range.
-/
namespace ShaderPass.ConstExpr

def versionIdent : String := "__VERSION__"

/-- The binary operators, loosest level first. -/
def levels : List (List Op) :=
  [[.or], [.and], [.eq, .ne], [.le, .ge, .lt, .gt], [.add, .sub], [.mul, .div, .rem]]

def truth (b : Bool) : Int :=
  if b then 1 else 0

def inRange (n : Int) : Except Fault Int :=
  if fitsSigned n then .ok n else .error .overflow

/-- Division and remainder of the least value by minus one are out of range alike. -/
def quotient (part : Int → Int → Int) (a b : Int) : Except Fault Int :=
  if b = 0 then .error .divisionByZero
  else if fitsSigned (a.tdiv b) then .ok (part a b)
  else .error .overflow

def Op.apply (op : Op) (a b : Int) : Except Fault Int :=
  match op with
  | .or => .ok (truth (a ≠ 0 || b ≠ 0))
  | .and => .ok (truth (a ≠ 0 && b ≠ 0))
  | .eq => .ok (truth (a = b))
  | .ne => .ok (truth (a ≠ b))
  | .le => .ok (truth (a ≤ b))
  | .ge => .ok (truth (a ≥ b))
  | .lt => .ok (truth (a < b))
  | .gt => .ok (truth (a > b))
  | .add => inRange (a + b)
  | .sub => inRange (a - b)
  | .mul => inRange (a * b)
  | .div => quotient Int.tdiv a b
  | .rem => quotient Int.tmod a b
  | .not | .opening | .closing => .ok 0

structure Reading (source : List Lexeme) where
  value : Int
  rest : List Lexeme
  shorter : rest.length < source.length

structure Continuation (source : List Lexeme) where
  value : Int
  rest : List Lexeme
  noLonger : rest.length ≤ source.length

mutual

/-- Reads an expression whose loosest binary operators are those of the first of `tiers`. Without
tiers it reads an operand: signs, a literal, the version, or an expression in parentheses. -/
def read (version : Option Int) (tiers : List (List Op)) (ts : List Lexeme) :
    Except Fault (Reading ts) :=
  match tiers, ts with
  | tier :: tighter, ts => do
    let first ← read version tighter ts
    have := first.shorter
    let all ← extend version tier tighter first.value first.rest
    return ⟨all.value, all.rest, Nat.lt_of_le_of_lt all.noLonger first.shorter⟩
  | [], [] => .error .unexpectedEnd
  | [], .op .not :: rest => do
    let operand ← read version [] rest
    return ⟨truth (operand.value = 0), operand.rest, Nat.lt_succ_of_lt operand.shorter⟩
  | [], .op .sub :: rest => do
    let operand ← read version [] rest
    let value ← inRange (-operand.value)
    return ⟨value, operand.rest, Nat.lt_succ_of_lt operand.shorter⟩
  | [], .op .add :: rest => do
    let operand ← read version [] rest
    return ⟨operand.value, operand.rest, Nat.lt_succ_of_lt operand.shorter⟩
  | [], .int n :: rest => .ok ⟨n, rest, Nat.lt_succ_self _⟩
  | [], .ident name :: rest =>
    match version with
    | some v =>
      if name = versionIdent then .ok ⟨v, rest, Nat.lt_succ_self _⟩
      else .error (.unknownIdentifier name)
    | none => .error (.unknownIdentifier name)
  | [], .op .opening :: rest => do
    let inner ← read version levels rest
    match h : inner.rest with
    | .op .closing :: after =>
      have h' := inner.shorter
      return ⟨inner.value, after, by rw [h] at h'; simp at h' ⊢; omega⟩
    | _ => .error .unexpectedEnd
  | [], .op o :: _ => .error (.unexpectedToken o.symbol)
termination_by (levels.length + 1) * ts.length + tiers.length
decreasing_by all_goals simp only [levels, List.length_cons, List.length_nil]; omega

def extend (version : Option Int) (tier : List Op) (tighter : List (List Op)) (value : Int)
    (ts : List Lexeme) : Except Fault (Continuation ts) :=
  match ts with
  | .op o :: rest =>
    if o ∈ tier then do
      let operand ← read version tighter rest
      let value ← o.apply value operand.value
      have := operand.shorter
      let all ← extend version tier tighter value operand.rest
      have := all.noLonger
      return ⟨all.value, all.rest, by simp; omega⟩
    else .ok ⟨value, .op o :: rest, Nat.le_refl _⟩
  | ts => .ok ⟨value, ts, Nat.le_refl _⟩
termination_by (levels.length + 1) * ts.length + tighter.length
decreasing_by all_goals simp only [levels, List.length_cons, List.length_nil]; omega

end

/-- The value of an expression. `version` is the value of the version identifier, if it has one. -/
def evaluate (expr : Text) (version : Option Int) : Except Fault Int := do
  let all ← read version levels (← lex expr)
  match all.rest with
  | [] => return all.value
  | left :: _ => .error (.unexpectedToken left.display)

/-- Whether a condition uses numbers, operators and the version only. Other conditions depend on
defines that are not known yet. -/
def isVersionCondition (condition : Text) : Bool :=
  match lex condition with
  | .ok ts =>
    !ts.isEmpty && ts.all fun
      | .ident name => name = versionIdent
      | _ => true
  | .error _ => false

end ShaderPass.ConstExpr
