import ShaderPass.Text.Basic

/-!
Whole words: occurrences of a name with no identifier character on either side.

The search takes the leftmost occurrences that do not overlap, and then keeps those that stand free.
-/
namespace ShaderPass

def isIdentStart (c : Char) : Bool :=
  c.isAlpha || c = '_'

def isIdentChar (c : Char) : Bool :=
  c.isAlphanum || c = '_'

theorem isIdentChar_of_isIdentStart {c : Char} (h : isIdentStart c = true) :
    isIdentChar c = true := by
  simp only [isIdentStart, isIdentChar, Char.isAlphanum, Bool.or_eq_true] at h ⊢
  rcases h with h | h
  · exact Or.inl (Or.inl h)
  · exact Or.inr h

namespace Text

/-- Whether a character boundary has no identifier character on that side. -/
def isFree (neighbour : Option Char) : Bool :=
  !neighbour.any isIdentChar

/-- The offsets of the free occurrences of `word`. `before` is the character in front, `skip` counts
the characters that still belong to the last occurrence, and `offset` is the position reached. -/
def wordOffsetsFrom (word : Text) (before : Option Char) (skip offset : Nat) : Text → List Nat
  | [] => if word.isEmpty && isFree before then [offset] else []
  | c :: t =>
    if skip = 0 && word.isPrefixOf (c :: t) then
      let later := wordOffsetsFrom word (some c) (word.length - 1) (offset + c.utf8Size) t
      if isFree before && isFree ((c :: t).drop word.length).head? then offset :: later else later
    else wordOffsetsFrom word (some c) (skip - 1) (offset + c.utf8Size) t

def wordOffsets (t word : Text) : List Nat :=
  wordOffsetsFrom word none 0 0 t

def containsWord (t word : Text) : Bool :=
  !(wordOffsets t word).isEmpty

def countWord (t word : Text) : Nat :=
  (wordOffsets t word).length

def spanIdent (t : Text) : Text × Text :=
  (t.takeWhile isIdentChar, t.dropWhile isIdentChar)

end Text
end ShaderPass
