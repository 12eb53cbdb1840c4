import ShaderPass.Text.Basic

/-!
Blank characters and the trimming that goes with them.

Two sets matter: the characters with the White_Space property, which trimming removes, and the five
ASCII blanks that separate tokens.
-/
namespace ShaderPass

/-- The characters with the White_Space property. -/
def isBlank (c : Char) : Bool :=
  let n := c.toNat
  (9 ≤ n && n ≤ 13) || n = 0x20 || n = 0x85 || n = 0xA0 || n = 0x1680 ||
    (0x2000 ≤ n && n ≤ 0x200A) || n = 0x2028 || n = 0x2029 || n = 0x202F || n = 0x205F || n = 0x3000

def isTokenBlank (c : Char) : Bool :=
  c = ' ' || c = '\t' || c = '\n' || c = '\r' || c = '\x0c'

theorem isBlank_of_isTokenBlank {c : Char} (h : isTokenBlank c = true) : isBlank c = true := by
  simp only [isTokenBlank, Bool.or_eq_true, decide_eq_true_eq] at h
  rcases h with (((h | h) | h) | h) | h <;> subst h <;> decide

namespace Text

def trimStart (t : Text) : Text :=
  t.dropWhile isBlank

def trimEndWhile (p : α → Bool) : List α → List α
  | [] => []
  | c :: t =>
    match trimEndWhile p t with
    | [] => if p c then [] else [c]
    | kept => c :: kept

def trimEnd (t : Text) : Text :=
  trimEndWhile isBlank t

def trim (t : Text) : Text :=
  trimEnd (trimStart t)

def runs (p : Char → Bool) : Text → List Text
  | [] => []
  | [c] => if p c then [[c]] else []
  | c :: d :: t =>
    if p c then
      match p d, runs p (d :: t) with
      | true, run :: rest => (c :: run) :: rest
      | _, rest => [c] :: rest
    else runs p (d :: t)

def fields (t : Text) : List Text :=
  runs (fun c => !isBlank c) t

end Text
end ShaderPass
