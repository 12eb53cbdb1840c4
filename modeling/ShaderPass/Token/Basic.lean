import ShaderPass.Text.Blank
import ShaderPass.Text.Word

/-!
Tokens of shader source.

Scanning cuts a text into nonempty pieces that concatenate to it, so a pass can splice the text at
token positions without reformatting anything.
-/
namespace ShaderPass

inductive TokenKind where
  | identifier
  | number
  /-- A single punctuation character. -/
  | punct
  /-- A whole preprocessor line with its continuations. -/
  | directive
  | comment
  | blank
  deriving Repr, DecidableEq

structure Token where
  kind : TokenKind
  lexeme : Text
  start : Nat
  deriving Repr, DecidableEq

namespace Token

def stop (t : Token) : Nat :=
  t.start + Text.byteLen t.lexeme

def name (t : Token) : String :=
  String.ofList t.lexeme

/-- Blanks and comments separate tokens and mean nothing. -/
def isTrivia (t : Token) : Bool :=
  t.kind = .comment || t.kind = .blank

def isDirective (t : Token) : Bool :=
  t.kind = .directive

def isIdentifier (t : Token) : Bool :=
  t.kind = .identifier

def isPunct (c : Char) (t : Token) : Bool :=
  t.kind = .punct && t.lexeme.head? = some c

def isNamed (name : String) (t : Token) : Bool :=
  t.kind = .identifier && t.lexeme = name.toList

def blockCommentLength : Text → Nat
  | '*' :: '/' :: _ => 2
  | [] => 0
  | _ :: t => blockCommentLength t + 1

/-- How many characters a preprocessor line still takes. A line feed continues the line when a
backslash stands before it, carriage returns aside; `continued` says that one does. -/
def directiveLength (continued : Bool) : Text → Nat
  | [] => 0
  | c :: t =>
    if c = '\n' then
      if continued then directiveLength false t + 1 else 0
    else directiveLength (c = '\\' || c = '\r' && continued) t + 1

/-- How many characters a number still takes. A sign belongs to it right after an exponent mark;
`mark` says that one stands in front. -/
def numberLength (mark : Bool) : Text → Nat
  | [] => 0
  | c :: t =>
    if isIdentChar c || c = '.' || mark && (c = '+' || c = '-') then
      numberLength (c = 'e' || c = 'E') t + 1
    else 0

/-- The kind of the token that starts with `c`, and how many of the following characters belong to
it. A directive starts only where nothing but blanks and comments precede it on its line. -/
def classify (lineStart : Bool) (c : Char) (rest : Text) : TokenKind × Nat :=
  if isTokenBlank c then (.blank, (rest.takeWhile isTokenBlank).length)
  else if c = '/' && rest.head? = some '/' then (.comment, (rest.takeWhile (· ≠ '\n')).length)
  else if c = '/' && rest.head? = some '*' then (.comment, blockCommentLength (rest.drop 1) + 1)
  else if c = '#' && lineStart then (.directive, directiveLength false rest)
  else if isIdentStart c then (.identifier, (rest.takeWhile isIdentChar).length)
  else if c.isDigit || c = '.' && rest.head?.any Char.isDigit then (.number, numberLength false rest)
  else (.punct, 0)

def startsLine (lineStart : Bool) (kind : TokenKind) (lexeme : Text) : Bool :=
  match kind with
  | .blank => lineStart || lexeme.contains '\n'
  | .comment => lineStart
  | _ => false

def pieces (lineStart : Bool) : Text → List (TokenKind × Text)
  | [] => []
  | c :: t =>
    let (kind, more) := classify lineStart c t
    let lexeme := c :: t.take more
    (kind, lexeme) :: pieces (startsLine lineStart kind lexeme) (t.drop more)
termination_by t => t.length
decreasing_by simp only [List.length_cons, List.length_drop]; omega

def place (start : Nat) : List (TokenKind × Text) → List Token
  | [] => []
  | (kind, lexeme) :: rest => ⟨kind, lexeme, start⟩ :: place (start + Text.byteLen lexeme) rest

def scan (t : Text) : List Token :=
  place 0 (pieces true t)

def significant (t : Text) : List Token :=
  (scan t).filter fun token => !token.isTrivia

theorem flatten_pieces (lineStart : Bool) (t : Text) :
    ((pieces lineStart t).map Prod.snd).flatten = t := by
  fun_induction pieces lineStart t with
  | case1 => rfl
  | case2 lineStart c t kind more h lexeme ih => simp [lexeme, ih]

end Token

namespace Text

/-- The text with each comment replaced by the line feeds in it. -/
def stripComments (t : Text) : Text :=
  (Token.scan t).flatMap fun token =>
    if token.kind = .comment then token.lexeme.filter (· = '\n') else token.lexeme

end Text
end ShaderPass
