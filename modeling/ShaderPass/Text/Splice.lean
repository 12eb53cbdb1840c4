import ShaderPass.Text.Word

/-!
Splicing: replacing disjoint byte ranges of a text, all positions being those of the text before any
change.
-/
namespace ShaderPass

structure Edit where
  start : Nat
  stop : Nat
  replacement : Text
  deriving Repr, DecidableEq

namespace Text

/-- Applies edits in ascending order to what follows byte offset `offset`. -/
def spliceFrom (offset : Nat) (rest : Text) : List Edit → Text
  | [] => rest
  | e :: es =>
    takeBytes (e.start - offset) rest ++ e.replacement ++
      spliceFrom e.stop (dropBytes (e.stop - offset) rest) es

/-- Applies disjoint edits, given in any order. -/
def splice (t : Text) (edits : List Edit) : Text :=
  spliceFrom 0 t (edits.mergeSort fun a b => a.start ≤ b.start)

def replaceWord (t word replacement : Text) : Text :=
  splice t ((wordOffsets t word).map fun n => ⟨n, n + byteLen word, replacement⟩)

end Text
end ShaderPass
