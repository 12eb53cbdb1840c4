import ShaderPass.Text.Basic

/-!
Numerals: digits in a base, with the bounds of the 32-bit and 64-bit words they are read into.
-/
namespace ShaderPass

def digitValue? (c : Char) : Option Nat :=
  if c.isDigit then some (c.toNat - '0'.toNat)
  else if 'a' ≤ c && c ≤ 'f' then some (c.toNat - 'a'.toNat + 10)
  else if 'A' ≤ c && c ≤ 'F' then some (c.toNat - 'A'.toNat + 10)
  else none

def digitsFrom? (base acc : Nat) : Text → Option Nat
  | [] => some acc
  | c :: t => do
    let d ← digitValue? c
    if d < base then digitsFrom? base (acc * base + d) t else none

def natOfDigits? (base : Nat) (t : Text) : Option Nat :=
  if t.isEmpty then none else digitsFrom? base 0 t

def fitsSigned (n : Int) : Bool :=
  -0x8000000000000000 ≤ n && n < 0x8000000000000000

/-- An unsigned 32-bit number: decimal digits with an optional plus sign. -/
def unsigned? (t : Text) : Option Nat :=
  let digits := match t with
    | '+' :: rest => rest
    | _ => t
  (natOfDigits? 10 digits).filter (· < 0x100000000)

/-- A signed 64-bit number: decimal digits with an optional sign. -/
def signed? (t : Text) : Option Int :=
  let value : Option Int := match t with
    | '+' :: rest => (natOfDigits? 10 rest).map Int.ofNat
    | '-' :: rest => (natOfDigits? 10 rest).map fun n => -Int.ofNat n
    | _ => (natOfDigits? 10 t).map Int.ofNat
  value.filter fitsSigned

def hexDigits (n : Nat) : String :=
  String.ofList (Nat.toDigits 16 n)

end ShaderPass
