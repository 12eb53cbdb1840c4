/-!
Source text as a list of characters, addressed by UTF-8 byte offsets.

Every position the passes report or splice at is a number of bytes from the start of the text.
Cutting a text at a position loses nothing, and a position between two pieces is the byte length of
the first piece.
-/
namespace ShaderPass

abbrev Text := List Char

namespace Text

def byteLen : Text → Nat
  | [] => 0
  | c :: t => c.utf8Size + byteLen t

@[simp] theorem byteLen_nil : byteLen [] = 0 := rfl

@[simp] theorem byteLen_cons (c : Char) (t : Text) :
    byteLen (c :: t) = c.utf8Size + byteLen t := rfl

@[simp] theorem byteLen_append (s t : Text) : byteLen (s ++ t) = byteLen s + byteLen t := by
  induction s with
  | nil => simp
  | cons c s ih => simp [ih, Nat.add_assoc]

def takeBytes : Nat → Text → Text
  | _, [] => []
  | 0, _ => []
  | n + 1, c :: t => c :: takeBytes (n + 1 - c.utf8Size) t

def dropBytes : Nat → Text → Text
  | _, [] => []
  | 0, t => t
  | n + 1, c :: t => dropBytes (n + 1 - c.utf8Size) t

@[simp] theorem takeBytes_zero (t : Text) : takeBytes 0 t = [] := by
  cases t <;> rfl

@[simp] theorem dropBytes_zero (t : Text) : dropBytes 0 t = t := by
  cases t <;> rfl

theorem takeBytes_append_dropBytes (n : Nat) (t : Text) :
    takeBytes n t ++ dropBytes n t = t := by
  induction t generalizing n with
  | nil => simp [takeBytes, dropBytes]
  | cons c t ih =>
    cases n with
    | zero => simp
    | succ n => simp [takeBytes, dropBytes, ih]

theorem takeBytes_byteLen_append (s t : Text) : takeBytes (byteLen s) (s ++ t) = s := by
  induction s with
  | nil => simp
  | cons c s ih =>
    have hc := c.utf8Size_pos
    obtain ⟨n, hn⟩ : ∃ n, byteLen (c :: s) = n + 1 :=
      ⟨byteLen (c :: s) - 1, by simp only [byteLen_cons]; omega⟩
    have hs : n + 1 - c.utf8Size = byteLen s := by simp only [byteLen_cons] at hn; omega
    rw [hn, List.cons_append, takeBytes, hs, ih]

theorem dropBytes_byteLen_append (s t : Text) : dropBytes (byteLen s) (s ++ t) = t := by
  have h := takeBytes_append_dropBytes (byteLen s) (s ++ t)
  rw [takeBytes_byteLen_append] at h
  exact List.append_cancel_left h

def slice (start stop : Nat) (t : Text) : Text :=
  takeBytes (stop - start) (dropBytes start t)

/-- The pieces of a text between the characters equal to `sep`, the last one included even when it
is empty. -/
def splitOn (sep : Char) : Text → List Text
  | [] => [[]]
  | c :: t =>
    if c = sep then [] :: splitOn sep t
    else match splitOn sep t with
      | [] => [[c]]
      | piece :: pieces => (c :: piece) :: pieces

def joinWith (sep : Text) : List Text → Text
  | [] => []
  | [t] => t
  | t :: ts => t ++ sep ++ joinWith sep ts

theorem splitOn_ne_nil (sep : Char) (t : Text) : splitOn sep t ≠ [] := by
  cases t with
  | nil => simp [splitOn]
  | cons c t =>
    rw [splitOn]
    split
    · simp
    · split <;> simp

theorem joinWith_splitOn (sep : Char) (t : Text) : joinWith [sep] (splitOn sep t) = t := by
  induction t with
  | nil => rfl
  | cons c t ih =>
    rw [splitOn]
    split
    · rename_i h
      cases hs : splitOn sep t with
      | nil => exact absurd hs (splitOn_ne_nil sep t)
      | cons piece pieces =>
        rw [hs] at ih
        simp [joinWith, ih, h]
    · cases hs : splitOn sep t with
      | nil => exact absurd hs (splitOn_ne_nil sep t)
      | cons piece pieces =>
        rw [hs] at ih
        cases pieces with
        | nil => simpa [joinWith] using ih
        | cons next pieces => simpa [joinWith] using ih

def feedLines (t : Text) : List Text :=
  splitOn '\n' t

def joinFeeds (ts : List Text) : Text :=
  joinWith ['\n'] ts

theorem joinFeeds_feedLines (t : Text) : joinFeeds (feedLines t) = t :=
  joinWith_splitOn '\n' t

/-- A line that a line feed ended, without the carriage return right before that line feed. -/
def dropReturn (line : Text) : Text :=
  if line.getLast? = some '\r' then line.dropLast else line

/-- The lines among the pieces of a text: what stands after the last line feed is a line only if it
is not empty, and keeps its carriage return. -/
def linesOf : List Text → List Text
  | [] => []
  | [last] => if last.isEmpty then [] else [last]
  | piece :: pieces => dropReturn piece :: linesOf pieces

def lines (t : Text) : List Text :=
  linesOf (feedLines t)

def endedLines : Text → List Text
  | [] => []
  | c :: t =>
    if c = '\n' then [c] :: endedLines t
    else match endedLines t with
      | [] => [[c]]
      | line :: rest => (c :: line) :: rest

/-- The texts around the first occurrence of `needle`. -/
def cut? (needle : Text) : Text → Option (Text × Text)
  | [] => if needle.isEmpty then some ([], []) else none
  | c :: t =>
    if needle.isPrefixOf (c :: t) then some ([], (c :: t).drop needle.length)
    else (cut? needle t).map fun (before, after) => (c :: before, after)

def after? (head t : Text) : Option Text :=
  if head.isPrefixOf t then some (t.drop head.length) else none

def before? (tail t : Text) : Option Text :=
  if tail.isSuffixOf t then some (t.take (t.length - tail.length)) else none

def lineOf (t : Text) (n : Nat) : Nat :=
  (takeBytes n t).count '\n' + 1

def lineIndent (t : Text) (n : Nat) : Text :=
  let start := ((takeBytes n t).reverse.takeWhile (· ≠ '\n')).reverse
  (start ++ dropBytes n t).takeWhile fun c => c = ' ' || c = '\t'

end Text
end ShaderPass
