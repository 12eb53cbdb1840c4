import ShaderPass.Macro.Pragma
import ShaderPass.Text.Splice

/-!
Literal macros: `#pragma define NAME value` names a piece of text.

A value is expanded with the macros declared before it only, so a later declaration of the same name
does not change it.
-/
namespace ShaderPass.Macro

structure Literal where
  name : Text
  value : Text
  deriving Repr, DecidableEq

/-- Replaces the names of macros by their values, one macro after the other. -/
def substitute (macros : List Literal) (t : Text) : Text :=
  macros.foldl (fun t m => Text.replaceWord t m.name m.value) t

/-- Continues a value over the following lines while it ends in a backslash, and gives the lines left
over. -/
def continued (value : Text) (lines : List Text) : Text × List Text :=
  if value.getLast? = some '\\' then
    match lines with
    | [] => (value.dropLast, [])
    | next :: rest =>
      continued (Text.trimEnd value.dropLast ++ ' ' :: Text.trim next) rest
  else (value, lines)
termination_by structural lines

theorem length_continued_le (value : Text) (lines : List Text) :
    (continued value lines).2.length ≤ lines.length := by
  induction lines generalizing value with
  | nil => unfold continued; split <;> simp
  | cons next rest ih =>
    unfold continued
    split
    · exact Nat.le_succ_of_le (ih _)
    · exact Nat.le_refl _

def scanLiterals (known : List Literal) : List Text → List Literal × List Text
  | [] => (known, [])
  | line :: lines =>
    match pragma? line with
    | some (name, rest) =>
      if hasParams rest then
        let (all, kept) := scanLiterals known lines
        (all, line :: kept)
      else
        let whole := continued (Text.trim rest) lines
        have := length_continued_le (Text.trim rest) lines
        let (all, kept) := scanLiterals
          (known ++ [⟨name, substitute known (Text.trim whole.1)⟩]) whole.2
        (all, List.replicate (lines.length - whole.2.length + 1) [] ++ kept)
    | none =>
      let (all, kept) := scanLiterals known lines
      (all, line :: kept)
termination_by lines => lines.length
decreasing_by all_goals simp only [List.length_cons]; omega

def expandLiterals (t : Text) : Text :=
  let (macros, lines) := scanLiterals [] (Text.feedLines t)
  substitute macros (Text.joinFeeds lines)

end ShaderPass.Macro
